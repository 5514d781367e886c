import SamlSeal.Text.Escape
import SamlSeal.Xml.CharacterData

/-!
# Reading escaped text

A reader gets back what was escaped: `textValue_text` for the content of elements,
`attributeValue_value` for attribute values.  Both go through the glyphs of the escaped text, in
which exactly those characters are referenced that a reader would not take as they are.
-/

namespace SamlSeal.Xml

/-! ### Glyphs -/

/-- The glyph of a character, if the given characters are always referenced. -/
def glyphOf (marked : List Char) (c : Char) : Glyph :=
  if c ∈ marked then .referenced c else .literal c

/-- The characters that are referenced in the content of an element. -/
def textMarks : List Char := ['&', '<', '>', '\r']

/-- The characters that are referenced in an attribute value. -/
def valueMarks : List Char := ['&', '<', '"', '\t', '\n', '\r']

theorem glyphs_flatMap {escape : Char → List Char} {glyph : Char → Glyph}
    (one : ∀ c cs, glyphs.go none (escape c ++ cs) = (glyphs.go none cs).map (glyph c :: ·))
    (s : List Char) : glyphs (s.flatMap escape) = some (s.map glyph) := by
  rw [glyphs]
  induction s with
  | nil => rfl
  | cons c s ih => rw [List.flatMap_cons, one, ih, Option.map_some, List.map_cons]

/-- A reference is read as a whole. -/
theorem glyphs_go_reference {body : List Char} {c : Char} (h : referent? body = some c)
    (closed : ';' ∉ body) (cs : List Char) :
    glyphs.go none ('&' :: body ++ ';' :: cs) = (glyphs.go none cs).map (.referenced c :: ·) := by
  have pending : ∀ seen rest : List Char, ';' ∉ rest →
      glyphs.go (some seen) (rest ++ ';' :: cs) =
        (referent? (seen.reverse ++ rest)).bind fun r =>
          (glyphs.go none cs).map (.referenced r :: ·) := by
    intro seen rest
    induction rest generalizing seen with
    | nil => simp [glyphs.go]
    | cons b rest ih =>
      intro free
      obtain ⟨ne, free⟩ : ';' ≠ b ∧ ';' ∉ rest := by simpa using free
      rw [List.cons_append, glyphs.go, if_neg (Ne.symm ne), ih _ free, List.reverse_cons,
        List.append_assoc]
      rfl
  rw [List.cons_append, glyphs.go, if_pos rfl, pending [] body closed, List.reverse_nil,
    List.nil_append, h]
  rfl

theorem glyphs_go_literal {c : Char} (h : c ≠ '&') (cs : List Char) :
    glyphs.go none ([c] ++ cs) = (glyphs.go none cs).map (.literal c :: ·) := by
  rw [List.singleton_append, glyphs.go, if_neg h]

theorem glyphs_go_textChar (c : Char) (cs : List Char) :
    glyphs.go none (Escape.textChar c ++ cs) =
      (glyphs.go none cs).map (glyphOf textMarks c :: ·) := by
  have amp : referent? ['a', 'm', 'p'] = some '&' := rfl
  have lt : referent? ['l', 't'] = some '<' := rfl
  have gt : referent? ['g', 't'] = some '>' := rfl
  have cr : referent? ['#', 'x', 'D'] = some '\r' := by decide
  unfold Escape.textChar
  split
  · exact glyphs_go_reference amp (by decide) cs
  · exact glyphs_go_reference lt (by decide) cs
  · exact glyphs_go_reference gt (by decide) cs
  · exact glyphs_go_reference cr (by decide) cs
  · next ne _ _ _ =>
    have plain : glyphOf textMarks c = .literal c := if_neg (by simp_all [textMarks])
    rw [plain]
    exact glyphs_go_literal ne cs

theorem glyphs_go_valueChar (c : Char) (cs : List Char) :
    glyphs.go none (Escape.valueChar c ++ cs) =
      (glyphs.go none cs).map (glyphOf valueMarks c :: ·) := by
  have amp : referent? ['a', 'm', 'p'] = some '&' := rfl
  have lt : referent? ['l', 't'] = some '<' := rfl
  have quot : referent? ['q', 'u', 'o', 't'] = some '"' := rfl
  have tab : referent? ['#', 'x', '9'] = some '\t' := by decide
  have lf : referent? ['#', 'x', 'A'] = some '\n' := by decide
  have cr : referent? ['#', 'x', 'D'] = some '\r' := by decide
  unfold Escape.valueChar
  split
  · exact glyphs_go_reference amp (by decide) cs
  · exact glyphs_go_reference lt (by decide) cs
  · exact glyphs_go_reference quot (by decide) cs
  · exact glyphs_go_reference tab (by decide) cs
  · exact glyphs_go_reference lf (by decide) cs
  · exact glyphs_go_reference cr (by decide) cs
  · next ne _ _ _ _ _ =>
    have plain : glyphOf valueMarks c = .literal c := if_neg (by simp_all [valueMarks])
    rw [plain]
    exact glyphs_go_literal ne cs

/-! ### Values -/

theorem evenLines_go_glyphOf (s : List Char) {held asIs : Bool} (h : held = true → asIs = true) :
    evenLines.go held asIs (s.map (glyphOf textMarks)) = (if held then ['\r'] else []) ++ s := by
  -- a carriage return is always referenced, so what comes after it is taken as it is
  induction s generalizing held asIs with
  | nil => simp [evenLines.go]
  | cons c s ih =>
    rw [List.map_cons, glyphOf]
    split
    · rw [evenLines.go]
      refine congrArg ((if held then ['\r'] else []) ++ ·) ?_
      by_cases eq : c = '\r'
      · rw [if_pos eq, ih fun _ => rfl, eq]
        rfl
      · rw [if_neg eq, ih (by simp)]
        rfl
    · next plain =>
      have ne : c ≠ '\r' := fun eq => plain (by simp [textMarks, eq])
      cases asIs with
      | true =>
        rw [evenLines.go, if_neg ne, ih (by simp)]
        rfl
      | false =>
        have notHeld : held = false := by simpa using h
        subst notHeld
        rw [evenLines.go, if_neg ne, if_neg (by simp), ih (by simp)]
        rfl

/-- The content of an element is read as it was before escaping. -/
theorem textValue_text (s : List Char) : textValue (Escape.text s) = some s := by
  rw [textValue, Escape.text, glyphs_flatMap glyphs_go_textChar, Option.map_some, evenLines,
    evenLines_go_glyphOf s (by simp)]
  rfl

/-- No white space but the space itself is left as it is in a value. -/
theorem space_of_plain {c : Char} (plain : c ∉ valueMarks) : (if isSpace c then ' ' else c) = c := by
  split
  · next space =>
    simp only [isSpace, Bool.or_eq_true, beq_iff_eq] at space
    rcases space with ((rfl | rfl) | rfl) | rfl
    · rfl
    all_goals exact absurd (by decide) plain
  · rfl

theorem evenSpaces_glyphOf (v : List Char) : evenSpaces (v.map (glyphOf valueMarks)) = v := by
  induction v with
  | nil => rfl
  | cons c v ih =>
    rw [List.map_cons, glyphOf]
    split
    · rw [evenSpaces, ih]
    · next plain =>
      have notCr : c ≠ '\r' := fun eq => plain (by simp [valueMarks, eq])
      rw [evenSpaces, space_of_plain plain, ih]
      exact fun _ _ cr => notCr cr

/-- An attribute value is read as it was before escaping. -/
theorem attributeValue_value (v : List Char) : attributeValue (Escape.value v) = some v := by
  rw [attributeValue, Escape.value, glyphs_flatMap glyphs_go_valueChar, Option.map_some,
    evenSpaces_glyphOf]

/-! ### What escaped text is made of -/

/-- The characters that references are written with. -/
def referenceChars : List Char :=
  ['&', ';', '#', 'x', '9', 'A', 'D', 'a', 'm', 'p', 'l', 't', 'g', 'q', 'u', 'o']

theorem referenceChars_sound {b : Char} (hb : b ∈ referenceChars) :
    isChar b = true ∧ b ≠ '<' ∧ b ≠ '>' ∧ b ≠ '"' := by
  have all : referenceChars.all fun b => isChar b && b != '<' && b != '>' && b != '"' := by decide
  simpa [and_assoc] using List.all_eq_true.1 all b hb

/-- Escaping leaves a character as it is or writes a reference. -/
theorem mem_textChar {c b : Char} (h : b ∈ Escape.textChar c) :
    b = c ∧ c ∉ textMarks ∨ b ∈ referenceChars := by
  unfold Escape.textChar at h
  split at h
  all_goals simp_all [textMarks, referenceChars]
  all_goals grind

theorem mem_valueChar {c b : Char} (h : b ∈ Escape.valueChar c) :
    b = c ∧ c ∉ valueMarks ∨ b ∈ referenceChars := by
  unfold Escape.valueChar at h
  split at h
  all_goals simp_all [valueMarks, referenceChars]
  all_goals grind

/-- The content of an element does not hold the characters that markup is made of. -/
theorem ne_of_mem_text {s : List Char} {b : Char} (h : b ∈ Escape.text s) : b ≠ '<' ∧ b ≠ '>' := by
  obtain ⟨c, -, hb⟩ := List.mem_flatMap.1 h
  rcases mem_textChar hb with ⟨rfl, plain⟩ | hb
  · exact ⟨fun eq => plain (by simp [textMarks, eq]), fun eq => plain (by simp [textMarks, eq])⟩
  · obtain ⟨-, lt, gt, -⟩ := referenceChars_sound hb
    exact ⟨lt, gt⟩

theorem isChar_text {s : List Char} (h : ∀ c ∈ s, isChar c = true) {b : Char}
    (hb : b ∈ Escape.text s) : isChar b = true := by
  obtain ⟨c, hc, hb⟩ := List.mem_flatMap.1 hb
  rcases mem_textChar hb with ⟨rfl, -⟩ | hb
  · exact h b hc
  · exact (referenceChars_sound hb).1

/-- An attribute value does not hold what would end it. -/
theorem ne_of_mem_value {v : List Char} {b : Char} (h : b ∈ Escape.value v) :
    b ≠ '"' ∧ b ≠ '<' := by
  obtain ⟨c, -, hb⟩ := List.mem_flatMap.1 h
  rcases mem_valueChar hb with ⟨rfl, plain⟩ | hb
  · exact ⟨fun eq => plain (by simp [valueMarks, eq]), fun eq => plain (by simp [valueMarks, eq])⟩
  · obtain ⟨-, lt, -, quot⟩ := referenceChars_sound hb
    exact ⟨quot, lt⟩

theorem isChar_value {v : List Char} (h : ∀ c ∈ v, isChar c = true) {b : Char}
    (hb : b ∈ Escape.value v) : isChar b = true := by
  obtain ⟨c, hc, hb⟩ := List.mem_flatMap.1 hb
  rcases mem_valueChar hb with ⟨rfl, -⟩ | hb
  · exact h b hc
  · exact (referenceChars_sound hb).1

theorem text_eq_nil_iff {s : List Char} : Escape.text s = [] ↔ s = [] := by
  have one (c : Char) : Escape.textChar c ≠ [] := by
    unfold Escape.textChar
    split <;> simp
  cases s with
  | nil => simp [Escape.text]
  | cons c s => simp [Escape.text, one]

end SamlSeal.Xml
