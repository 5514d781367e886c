import SamlSeal.Proofs.Fitness
import SamlSeal.Proofs.TextBytes
import SamlSeal.Proofs.Unambiguous

/-!
# Escaping is undone by reading

Texts are escaped in two places: canonical form appends to bytes, and a document is written by
appending to a text.  Both do so character by character, each with its own list of references.
`Escape.text` and `Escape.value` say at once what they append (`Canonical.appendText_eq`,
`Xml.escapeText_eq` and so on), so that they always agree.

* `Escape.Undone`: what is asked of a way of escaping: it can be read back, it keeps certain
  characters out, each of its ampersands starts a reference, and it goes character by character,
* `Xml.contentValue`, `Xml.normalizedValue`: what text stands for by the letter of XML 1.0, where
  line ends are evened out before anything else is read.  The readers of a document differ from
  this next to references (`Xml.textValue`), but not on what is escaped,
* `Escape.undone_and_shared`: both ways of escaping are undone by both ways of reading, in the
  place where they stand in a document, and the two writers append the same bytes.
-/

namespace SamlSeal

/-! ### Two writers -/

namespace Canonical

/-- The reference that is written for a character of an element's content. -/
def textReference? : Char → Option String
  | '&' => some "&amp;"
  | '<' => some "&lt;"
  | '>' => some "&gt;"
  | '\r' => some "&#xD;"
  | _ => none

/-- The reference that is written for a character of a value. -/
def valueReference? : Char → Option String
  | '&' => some "&amp;"
  | '<' => some "&lt;"
  | '"' => some "&quot;"
  | '\t' => some "&#x9;"
  | '\n' => some "&#xA;"
  | '\r' => some "&#xD;"
  | _ => none

/-- Appends a text to bytes, with references for the characters that have one. -/
def appendEscaped (reference? : Char → Option String) (s : String) (out : Bytes) : Bytes :=
  s.toList.foldl (fun out c =>
    match reference? c with
    | some reference => out ++ utf8 reference
    | none => out ++ String.utf8EncodeChar c) out

/-- Appends the content of an element to bytes. -/
def appendText (s : String) (out : Bytes) : Bytes := appendEscaped textReference? s out

/-- Appends a value to bytes. -/
def appendValue (s : String) (out : Bytes) : Bytes := appendEscaped valueReference? s out

end Canonical

namespace Xml

/-- Appends a character of an element's content to a text. -/
def pushText (out : String) : Char → String
  | '&' => out ++ "&amp;"
  | '<' => out ++ "&lt;"
  | '>' => out ++ "&gt;"
  | '\r' => out ++ "&#xD;"
  | c => out.push c

/-- Appends a character of a value to a text. -/
def pushValue (out : String) : Char → String
  | '&' => out ++ "&amp;"
  | '<' => out ++ "&lt;"
  | '"' => out ++ "&quot;"
  | '\t' => out ++ "&#x9;"
  | '\n' => out ++ "&#xA;"
  | '\r' => out ++ "&#xD;"
  | c => out.push c

/-- Appends the content of an element to a text. -/
def escapeText (s out : String) : String := s.toList.foldl pushText out

/-- Appends a value to a text. -/
def escapeValue (s out : String) : String := s.toList.foldl pushValue out

end Xml

/-! ### What the writers append -/

namespace Canonical

/-- To append character by character is to append all at once. -/
theorem appendEscaped_eq {reference? : Char → Option String} {escape : Char → List Char}
    (one : ∀ c, escape c = (reference? c).elim [c] String.toList) (s : String) (out : Bytes) :
    appendEscaped reference? s out = out ++ utf8 (String.ofList (s.toList.flatMap escape)) := by
  rw [appendEscaped, utf8_ofList]
  induction s.toList generalizing out with
  | nil => exact (List.append_nil out).symm
  | cons c cs ih =>
    rw [List.foldl_cons, ih, List.flatMap_cons, List.flatMap_append, ← List.append_assoc, one c]
    cases reference? c with
    | none => simp
    | some reference => simp [utf8_eq]

theorem appendText_eq (s : String) (out : Bytes) :
    appendText s out = out ++ utf8 (String.ofList (Escape.text s.toList)) := by
  refine appendEscaped_eq (fun c => ?_) s out
  unfold Escape.textChar textReference?
  split <;> simp

theorem appendValue_eq (s : String) (out : Bytes) :
    appendValue s out = out ++ utf8 (String.ofList (Escape.value s.toList)) := by
  refine appendEscaped_eq (fun c => ?_) s out
  unfold Escape.valueChar valueReference?
  split <;> simp

end Canonical

namespace Xml

theorem foldl_push_eq {push : String → Char → String} {escape : Char → List Char}
    (one : ∀ out c, push out c = out ++ String.ofList (escape c)) (cs : List Char) (out : String) :
    cs.foldl push out = out ++ String.ofList (cs.flatMap escape) := by
  induction cs generalizing out with
  | nil => simp
  | cons c cs ih =>
    rw [List.foldl_cons, ih, one, List.flatMap_cons, String.ofList_append, String.append_assoc]

theorem escapeText_eq (s out : String) :
    escapeText s out = out ++ String.ofList (Escape.text s.toList) := by
  refine foldl_push_eq (fun out c => ?_) s.toList out
  unfold pushText Escape.textChar
  split <;> simp

theorem escapeValue_eq (s out : String) :
    escapeValue s out = out ++ String.ofList (Escape.value s.toList) := by
  refine foldl_push_eq (fun out c => ?_) s.toList out
  unfold pushValue Escape.valueChar
  split <;> simp

/-! ### Reading by the letter -/

/-- Line ends are evened out before anything else is read: a carriage return, alone or before a
line feed, becomes a line feed. -/
def evenEnds : List Char → List Char
  | [] => []
  | '\r' :: '\n' :: cs => '\n' :: evenEnds cs
  | c :: cs => (if c = '\r' then '\n' else c) :: evenEnds cs

/-- What stands in an attribute value for a glyph: literal white space becomes a space. -/
def Glyph.normalized : Glyph → Char
  | literal c => if isSpace c then ' ' else c
  | referenced c => c

/-- The text that content, free of markup, stands for. -/
def contentValue (raw : List Char) : Option (List Char) :=
  (glyphs (evenEnds raw)).map (·.map Glyph.char)

/-- The text that stands between the quotes of an attribute. -/
def normalizedValue (raw : List Char) : Option (List Char) :=
  (glyphs (evenEnds raw)).map (·.map Glyph.normalized)

theorem evenEnds_eq_self {cs : List Char} (free : '\r' ∉ cs) : evenEnds cs = cs := by
  fun_induction evenEnds cs with
  | case1 => rfl
  | case2 cs ih => simp at free
  | case3 c cs _ ih =>
    obtain ⟨ne, free⟩ : '\r' ≠ c ∧ '\r' ∉ cs := by simpa using free
    rw [if_neg (Ne.symm ne), ih free]

/-- Escaping keeps the characters out that it gives as references. -/
theorem not_mem_flatMap {escape : Char → List Char} {marks : List Char}
    (one : ∀ {c b : Char}, b ∈ escape c → b = c ∧ c ∉ marks ∨ b ∈ referenceChars) {b : Char}
    (marked : b ∈ marks) (other : b ∉ referenceChars) (s : List Char) : b ∉ s.flatMap escape := by
  intro mem
  obtain ⟨c, -, hb⟩ := List.mem_flatMap.1 mem
  rcases one hb with ⟨rfl, plain⟩ | reference
  · exact plain marked
  · exact other reference

theorem contentValue_text (s : List Char) : contentValue (Escape.text s) = some s := by
  have char (c : Char) : (glyphOf textMarks c).char = c := by
    rw [glyphOf]
    split <;> rfl
  rw [contentValue, Escape.text,
    evenEnds_eq_self (not_mem_flatMap mem_textChar (by decide) (by decide) s),
    glyphs_flatMap glyphs_go_textChar, Option.map_some, List.map_map]
  exact congrArg some (List.map_id'' char s)

theorem normalizedValue_value (s : List Char) : normalizedValue (Escape.value s) = some s := by
  have char (c : Char) : (glyphOf valueMarks c).normalized = c := by
    rw [glyphOf]
    split
    · rfl
    · next plain => exact space_of_plain plain
  rw [normalizedValue, Escape.value,
    evenEnds_eq_self (not_mem_flatMap mem_valueChar (by decide) (by decide) s),
    glyphs_flatMap glyphs_go_valueChar, Option.map_some, List.map_map]
  exact congrArg some (List.map_id'' char s)

end Xml

namespace Escape

open Xml

/-! ### Both at once -/

/-- What is asked of a way of escaping that `readers` undo. -/
structure Undone (escape : List Char → List Char) (barred : List Char) (references : List String)
    (readers : List (List Char → Option (List Char))) : Prop where
  reads : ∀ read ∈ readers, ∀ s, read (escape s) = some s
  /-- Some characters never stand in an escaped text as they are. -/
  free : ∀ c ∈ barred, ∀ s, c ∉ escape s
  /-- Every ampersand starts one of the references. -/
  starts : ∀ s front rest, escape s = front ++ '&' :: rest →
    ∃ r ∈ references, r.toList <+: '&' :: rest
  injective : Function.Injective escape
  append : ∀ s t, escape (s ++ t) = escape s ++ escape t

/-- If every character is written as itself or as a reference, and references hold an ampersand at
their start only, then every ampersand starts a reference. -/
theorem starts_of_flatMap {escape : Char → List Char} {references : List String}
    (one : ∀ c, (∃ r ∈ references, escape c = r.toList) ∨ escape c = [c] ∧ c ≠ '&')
    (lone : ∀ r ∈ references, '&' ∉ r.toList.tail) (s front rest : List Char)
    (h : s.flatMap escape = front ++ '&' :: rest) :
    ∃ r ∈ references, r.toList <+: '&' :: rest := by
  induction s generalizing front with
  | nil => simp at h
  | cons c s ih =>
    rw [List.flatMap_cons] at h
    rcases List.append_eq_append_iff.1 h with ⟨later, -, tail⟩ | ⟨inside, here, tail⟩
    · exact ih later tail
    · cases inside with
      | nil => exact ih [] tail.symm
      | cons b inside =>
        -- the ampersand stands in what is written for `c`
        obtain ⟨rfl, rfl⟩ := List.cons.inj tail
        rcases one c with ⟨r, mem, eq⟩ | ⟨eq, ne⟩
        · rw [eq] at here
          cases front with
          | nil => exact ⟨r, mem, here ▸ List.prefix_append ('&' :: inside) _⟩
          | cons f front => exact absurd (by simp [here]) (lone r mem)
        · have mem : '&' ∈ [c] := by simp [← eq, here]
          exact absurd (List.mem_singleton.1 mem).symm ne

theorem undone_text : Undone text ['<', '>', '\r'] ["&amp;", "&lt;", "&gt;", "&#xD;"]
    [textValue, contentValue] where
  reads := by simp [textValue_text, contentValue_text]
  free := by
    intro c hc
    simp only [List.mem_cons, List.not_mem_nil, or_false] at hc
    rcases hc with rfl | rfl | rfl <;> exact not_mem_flatMap mem_textChar (by decide) (by decide)
  starts := by
    refine starts_of_flatMap (fun c => ?_) (by decide +kernel)
    unfold textChar
    split <;> simp_all
  injective _ _ := text_injective
  append := text_append

theorem undone_value : Undone value ['<', '"', '\t', '\n', '\r']
    ["&amp;", "&lt;", "&quot;", "&#x9;", "&#xA;", "&#xD;"] [attributeValue, normalizedValue] where
  reads := by simp [attributeValue_value, normalizedValue_value]
  free := by
    intro c hc
    simp only [List.mem_cons, List.not_mem_nil, or_false] at hc
    rcases hc with rfl | rfl | rfl | rfl | rfl <;>
      exact not_mem_flatMap mem_valueChar (by decide) (by decide)
  starts := by
    refine starts_of_flatMap (fun c => ?_) (by decide +kernel)
    unfold valueChar
    split <;> simp_all
  injective _ _ := value_injective
  append := value_append

/-- Escaping is undone by the readers of a document and by the letter of XML 1.0; what is escaped is
found as a whole where it stands, as the content of an element or between double quotes; and both
writers append the same bytes. -/
theorem undone_and_shared :
    Undone text ['<', '>', '\r'] ["&amp;", "&lt;", "&gt;", "&#xD;"] [textValue, contentValue] ∧
    Undone value ['<', '"', '\t', '\n', '\r']
      ["&amp;", "&lt;", "&quot;", "&#x9;", "&#xA;", "&#xD;"] [attributeValue, normalizedValue] ∧
    (∀ s rest : List Char, (∀ c ∈ s, isChar c = true) → s ≠ [] →
      Token.next? (text s ++ '<' :: rest) = some (.text (text s), '<' :: rest)) ∧
    (∀ (name : WrittenName) (s : String) (rest : List Char), AttributeFits (name, s) →
      quoted? (name.print ++ '=' :: '"' :: (value s.toList ++ '"' :: rest)) =
        some (name, value s.toList, rest)) ∧
    ∀ (s out : String) (bytes : Bytes),
      escapeText s out = out ++ String.ofList (text s.toList) ∧
      Canonical.appendText s bytes = bytes ++ utf8 (String.ofList (text s.toList)) ∧
      utf8 (escapeText s out) = Canonical.appendText s (utf8 out) ∧
      escapeValue s out = out ++ String.ofList (value s.toList) ∧
      Canonical.appendValue s bytes = bytes ++ utf8 (String.ofList (value s.toList)) ∧
      utf8 (escapeValue s out) = Canonical.appendValue s (utf8 out) := by
  refine ⟨undone_text, undone_value, fun s rest chars ne => ?_, fun name s rest fits => ?_,
    fun s out bytes => ⟨escapeText_eq s out, Canonical.appendText_eq s bytes, ?_,
      escapeValue_eq s out, Canonical.appendValue_eq s bytes, ?_⟩⟩
  · exact Token.next?_text chars ne (by simp)
  · exact quoted?_printAttribute fits rest
  · rw [escapeText_eq, Canonical.appendText_eq, utf8_append]
  · rw [escapeValue_eq, Canonical.appendValue_eq, utf8_append]

end Escape

end SamlSeal
