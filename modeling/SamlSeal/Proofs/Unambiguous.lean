import SamlSeal.Proofs.Escaping
import SamlSeal.Proofs.Fitness

/-!
# Canonical form is unambiguous

Canonical form determines what it is written from, up to what it does not show.  The argument reads
a form from its start, and at every place the next characters decide what comes:

* escaped texts and values can be read back (`text_injective`, `value_injective`), and hold nothing
  that ends them,
* a start tag is a name and a list of names with values; those that declare namespaces come first
  (`Opening.write_inj`),
* `Lead` tells the pieces apart by their first two characters, and `write_append_inj` follows the
  pieces from one to the next.

With the bindings read off the declarations (`decode_render`) this gives what the form says
(`Document.reading`), and that is the content of the document (`reading_eq_content`).
-/

namespace SamlSeal

open Xml

/-! ### Characters -/

/-- Two lists of members of one kind, each in front of a member of another kind or of nothing. -/
theorem append_inj_of_stop {α : Type} {p : α → Bool} {a b s t : List α}
    (ha : ∀ c ∈ a, p c = true) (hb : ∀ c ∈ b, p c = true)
    (hs : ∀ c, s.head? = some c → p c = false) (ht : ∀ c, t.head? = some c → p c = false)
    (h : a ++ s = b ++ t) : a = b ∧ s = t := by
  have stop : ∀ {r : List α}, (∀ c, r.head? = some c → p c = false) → r.takeWhile p = [] := by
    intro r hr
    cases r with
    | nil => rfl
    | cons c r => simp [hr c rfl]
  have front : a = b := by
    have eq := congrArg (List.takeWhile p) h
    rwa [List.takeWhile_append_of_pos ha, List.takeWhile_append_of_pos hb, stop hs, stop ht,
      List.append_nil, List.append_nil] at eq
  subst front
  exact ⟨rfl, List.append_cancel_left h⟩

namespace Escape

theorem text_injective {a b : List Char} (h : text a = text b) : a = b := by
  have read := textValue_text a
  rw [h, textValue_text] at read
  exact (Option.some.inj read).symm

theorem value_injective {a b : List Char} (h : value a = value b) : a = b := by
  have read := attributeValue_value a
  rw [h, attributeValue_value] at read
  exact (Option.some.inj read).symm

theorem instructionChar_of_ne {c : Char} (h : c ≠ '\r') : instructionChar c = [c] := by
  unfold instructionChar
  split
  · exact absurd rfl h
  · rfl

theorem return_not_mem_instruction (a : List Char) : '\r' ∉ instruction a := by
  intro h
  obtain ⟨c, -, hc⟩ := List.mem_flatMap.1 h
  unfold instructionChar at hc
  split at hc <;> simp at hc
  exact absurd hc.symm (by assumption)

theorem instruction_ne_nil {a : List Char} (h : a ≠ []) : instruction a ≠ [] := by
  cases a with
  | nil => exact absurd rfl h
  | cons c a =>
    intro empty
    rw [instruction, List.flatMap_cons, List.append_eq_nil_iff] at empty
    have := empty.1
    unfold instructionChar at this
    split at this <;> cases this

/-- Data without carriage returns is written as it is. -/
theorem instruction_eq_self {a : List Char} (h : '\r' ∉ a) : instruction a = a := by
  induction a with
  | nil => rfl
  | cons c a ih =>
    rw [List.mem_cons, not_or] at h
    rw [instruction, List.flatMap_cons, instructionChar_of_ne (Ne.symm h.1), List.singleton_append]
    exact congrArg (c :: ·) (ih h.2)

theorem unbroken_cons {c : Char} {a : List Char} : Unbroken ['?', '>'] (c :: a) ↔
    (c = '?' → a.head? ≠ some '>') ∧ Unbroken ['?', '>'] a := by
  -- whether data ends at `c` is decided by `c` and the character after it
  have here (rest : List Char) : ['?', '>'].isPrefixOf (c :: (a ++ (['?', '>'] ++ rest))) = true ↔
      c = '?' ∧ a.head? = some '>' := by
    cases a with
    | nil => simp [List.isPrefixOf]
    | cons b a => simp [List.isPrefixOf, eq_comm (a := '?'), eq_comm (a := '>')]
  have step (rest : List Char) (no : ¬ (c = '?' ∧ a.head? = some '>')) :
      splitAt? ['?', '>'] (c :: a ++ (['?', '>'] ++ rest)) =
        (splitAt? ['?', '>'] (a ++ (['?', '>'] ++ rest))).map fun r => (c :: r.1, r.2) := by
    rw [List.cons_append, splitAt?, if_neg (mt (here rest).1 no)]
  constructor
  · intro h
    have no : ¬ (c = '?' ∧ a.head? = some '>') := by
      intro yes
      have := h []
      rw [List.cons_append, splitAt?, if_pos ((here []).2 yes)] at this
      cases this
    refine ⟨fun hc ha => no ⟨hc, ha⟩, fun rest => ?_⟩
    have := h rest
    rw [step rest no, Option.map_eq_some_iff] at this
    obtain ⟨⟨raw, after⟩, eq, same⟩ := this
    simp only [Prod.mk.injEq, List.cons.injEq, true_and] at same
    rw [eq, same.1, same.2]
  · rintro ⟨no, h⟩ rest
    rw [step rest fun both => no both.1 both.2, h rest]
    rfl

/-- Escaping does not put an end into data that had none. -/
theorem unbroken_instruction {a : List Char} (h : Unbroken ['?', '>'] a) :
    Unbroken ['?', '>'] (instruction a) := by
  induction a with
  | nil => exact h
  | cons c a ih =>
    obtain ⟨no, h⟩ := unbroken_cons.1 h
    have rest := ih h
    by_cases hc : c = '\r'
    · subst hc
      have reference : instruction ('\r' :: a) = ['&', '#', 'x', 'D', ';'] ++ instruction a := rfl
      rw [reference]
      simp only [List.cons_append, List.nil_append, unbroken_cons]
      simp [rest]
    · have plain : instruction (c :: a) = c :: instruction a := by
        rw [instruction, List.flatMap_cons, instructionChar_of_ne hc]
        rfl
      rw [plain, unbroken_cons]
      refine ⟨fun question => ?_, rest⟩
      have no := no question
      cases a with
      | nil => simp [instruction]
      | cons b a =>
        -- the first character of a code is the character or the start of a reference
        intro first
        have : instructionChar b = [b] ∨ instructionChar b = ['&', '#', 'x', 'D', ';'] := by
          unfold instructionChar
          split <;> simp
        rw [instruction, List.flatMap_cons] at first
        rcases this with eq | eq <;> rw [eq] at first
        · exact no first
        · cases first

end Escape

namespace Canonical

/-! ### Start tags -/

/-- The names in a start tag can be told from what is around them, and attributes from
declarations. -/
structure Opening.Readable (o : Opening) : Prop where
  name_ne : o.name ≠ ""
  name_chars : ∀ c ∈ o.name.toList, isNameChar c = true
  declarations : ∀ d ∈ o.declarations, ∀ c ∈ d.pfx.toList, isNameChar c = true
  attributes : ∀ a ∈ o.attributes, (∀ c ∈ a.qualified.toList, isNameChar c = true) ∧
    StartTag.isDeclaration a.qualified.toList = false

theorem writeAttribute_append (name value : String) (r : List Char) :
    writeAttribute name value ++ r =
      ' ' :: (name.toList ++ '=' :: '"' :: (Escape.value value.toList ++ '"' :: r)) := by
  simp [writeAttribute]

/-- A list of names and values, up to the end of the start tag. -/
theorem writePairs_inj {ps qs : List (String × String)} {r r' : List Char}
    (hp : ∀ p ∈ ps, ∀ c ∈ p.1.toList, isNameChar c = true)
    (hq : ∀ q ∈ qs, ∀ c ∈ q.1.toList, isNameChar c = true)
    (h : ps.flatMap (fun p => writeAttribute p.1 p.2) ++ '>' :: r =
      qs.flatMap (fun p => writeAttribute p.1 p.2) ++ '>' :: r') : ps = qs ∧ r = r' := by
  induction ps generalizing qs with
  | nil =>
    cases qs with
    | nil => exact ⟨rfl, (List.cons.inj h).2⟩
    | cons q qs => simp [writeAttribute] at h
  | cons p ps ih =>
    cases qs with
    | nil => simp [writeAttribute] at h
    | cons q qs =>
      rw [List.flatMap_cons, List.flatMap_cons, List.append_assoc, List.append_assoc,
        writeAttribute_append, writeAttribute_append] at h
      have h := (List.cons.inj h).2
      -- the name ends at the equals sign, and the value at the quote
      have equals : ∀ (s : List Char) (c : Char), ('=' :: s).head? = some c →
          isNameChar c = false := by
        rintro s c eq
        obtain rfl := Option.some.inj eq
        decide
      obtain ⟨name, h⟩ := append_inj_of_stop (hp p List.mem_cons_self) (hq q List.mem_cons_self)
        (equals _) (equals _) h
      simp only [List.cons.injEq, true_and] at h
      have inside : ∀ (v : String) (c : Char), c ∈ Escape.value v.toList → (c != '"') = true :=
        fun v c hc => by simpa using (ne_of_mem_value hc).1
      have quote : ∀ (s : List Char) (c : Char), ('"' :: s).head? = some c →
          (c != '"') = false := by
        rintro s c eq
        obtain rfl := Option.some.inj eq
        rfl
      obtain ⟨value, h⟩ := append_inj_of_stop (inside p.2) (inside q.2) (quote _) (quote _) h
      obtain ⟨tail, rest⟩ := ih (fun p' hp' => hp p' (List.mem_cons_of_mem _ hp'))
        (fun q' hq' => hq q' (List.mem_cons_of_mem _ hq')) (List.cons.inj h).2
      have pair : p = q := Prod.ext (String.toList_injective name)
        (String.toList_injective (Escape.value_injective value))
      exact ⟨by rw [pair, tail], rest⟩

theorem Opening.Readable.pairs_chars {o : Opening} (h : o.Readable) :
    ∀ p ∈ o.pairs, ∀ c ∈ p.1.toList, isNameChar c = true := by
  intro p hp
  rcases List.mem_append.1 hp with hp | hp
  · obtain ⟨d, hd, rfl⟩ := List.mem_map.1 hp
    intro c hc
    have word : ∀ c ∈ "xmlns".toList ++ ":".toList, isNameChar c = true :=
      List.all_eq_true.1 (by decide)
    unfold declarationName at hc
    split at hc
    · exact word c (List.mem_append_left _ hc)
    · rw [String.toList_append, List.mem_append] at hc
      rcases hc with hc | hc
      · exact word c hc
      · exact h.declarations d hd c hc
  · obtain ⟨a, ha, rfl⟩ := List.mem_map.1 hp
    exact (h.attributes a ha).1

/-- What can be read back of a start tag is in its name and its pairs. -/
theorem Opening.bare_eq_of_pairs {o o' : Opening} (h : o.Readable) (h' : o'.Readable)
    (name : o.name = o'.name) (pairs : o.pairs = o'.pairs) : o.bare = o'.bare := by
  have declares (o : Opening) : ∀ p ∈ o.declarations.map fun d => (declarationName d, d.uri),
      StartTag.isDeclaration p.1.toList = true := by
    intro p hp
    obtain ⟨d, -, rfl⟩ := List.mem_map.1 hp
    exact isDeclaration_declarationName d
  have stops {o : Opening} (h : o.Readable) : ∀ p,
      (o.attributes.map fun a => (a.qualified, a.value)).head? = some p →
        StartTag.isDeclaration p.1.toList = false := by
    intro p hp
    obtain ⟨a, ha, rfl⟩ := List.mem_map.1 (List.mem_of_head? hp)
    exact (h.attributes a ha).2
  obtain ⟨declarations, attributes⟩ :=
    append_inj_of_stop (declares o) (declares o') (stops h) (stops h') pairs
  have declarations : o.declarations = o'.declarations := by
    refine List.map_inj_right (fun d d' eq => ?_) |>.1 declarations
    have name := declarationName_inj (Prod.mk.inj eq).1
    have uri := (Prod.mk.inj eq).2
    cases d; cases d'
    simp_all
  have attributes := congrArg (List.map fun p : String × String => WrittenAttribute.mk "" "" p.1 p.2)
    attributes
  rw [List.map_map, List.map_map] at attributes
  unfold Opening.bare
  rw [name, declarations]
  exact congrArg _ attributes

theorem Opening.write_inj {o o' : Opening} (h : o.Readable) (h' : o'.Readable) {r r' : List Char}
    (eq : o.write ++ r = o'.write ++ r') : o.bare = o'.bare ∧ o.name = o'.name ∧ r = r' := by
  simp only [Opening.write_eq, List.cons_append, List.append_assoc, List.nil_append,
    List.cons.injEq, true_and] at eq
  -- after the name comes a space or the end of the tag
  have stops (ps : List (String × String)) (r : List Char) (c : Char)
      (hc : (ps.flatMap (fun p => writeAttribute p.1 p.2) ++ '>' :: r).head? = some c) :
      isNameChar c = false := by
    cases ps with
    | nil =>
      obtain rfl := Option.some.inj hc
      decide
    | cons p ps =>
      obtain rfl : ' ' = c := Option.some.inj hc
      decide
  obtain ⟨name, eq⟩ := append_inj_of_stop h.name_chars h'.name_chars (stops _ _) (stops _ _) eq
  obtain ⟨pairs, rest⟩ := writePairs_inj h.pairs_chars h'.pairs_chars eq
  have name := String.toList_injective name
  exact ⟨bare_eq_of_pairs h h' name pairs, name, rest⟩

/-! ### Pieces -/

/-- Joined pieces of which each can be told from what is around it. -/
inductive Readable : Forest (Piece Opening) → Prop
  | nil : Readable .nil
  | element {o : Opening} {inner next : Forest (Piece Opening)} (ho : o.Readable)
    (hi : Readable inner) (hn : Readable next) : Readable (.node (.element o) inner next)
  | text {content : String} {next : Forest (Piece Opening)} (ne : content ≠ "")
    (apart : ∀ s inner rest, next ≠ .node (.text s) inner rest) (hn : Readable next) :
    Readable (.node (.text content) .nil next)
  | comment {content : String} {next : Forest (Piece Opening)}
    (unbroken : Unbroken ['-', '-', '>'] content.toList) (hn : Readable next) :
    Readable (.node (.comment content) .nil next)
  | instruction {target : String} {data : Option String} {next : Forest (Piece Opening)}
    (sound : InstructionSound target data) (plain : ∀ s ∈ data, s ≠ "" ∧ '\r' ∉ s.toList)
    (hn : Readable next) : Readable (.node (.instruction target data) .nil next)

/-- What comes next in a canonical form. -/
inductive Lead where
  /-- An end tag, or the end of the form. -/
  | stop
  | element
  | text
  | comment
  | instruction
  deriving DecidableEq

/-- What comes next is decided by two characters. -/
def Lead.ofText : List Char → Lead
  | [] => .stop
  | '<' :: '/' :: _ => .stop
  | '<' :: '!' :: _ => .comment
  | '<' :: '?' :: _ => .instruction
  | '<' :: _ => .element
  | _ => .text

def Lead.ofPieces : Forest (Piece Opening) → Lead
  | .nil => .stop
  | .node (.element _) _ _ => .element
  | .node (.text _) _ _ => .text
  | .node (.comment _) _ _ => .comment
  | .node (.instruction ..) _ _ => .instruction
  | .node .lineBreak _ _ => .text

/-- What may come after the pieces inside an element, or after all pieces. -/
def Stops (r : List Char) : Prop := r = [] ∨ ∃ s, r = '<' :: '/' :: s

theorem Stops.lead {r : List Char} (h : Stops r) : Lead.ofText r = .stop := by
  rcases h with rfl | ⟨s, rfl⟩ <;> rfl

/-- The first character of a name is none of those that other markup starts with. -/
theorem lead_of_isNameChar {c : Char} (h : isNameChar c = true) (r : List Char) :
    Lead.ofText ('<' :: c :: r) = .element := by
  have slash : c ≠ '/' := by rintro rfl; exact absurd h (by decide)
  have bang : c ≠ '!' := by rintro rfl; exact absurd h (by decide)
  have question : c ≠ '?' := by rintro rfl; exact absurd h (by decide)
  unfold Lead.ofText
  split <;> simp_all

theorem lead_write {f : Forest (Piece Opening)} (hf : Readable f) {r : List Char} (hr : Stops r) :
    Lead.ofText (write f ++ r) = Lead.ofPieces f := by
  cases hf with
  | nil => exact hr.lead
  | @element o inner next ho _ _ =>
    cases name : o.name.toList with
    | nil => exact absurd (String.toList_eq_nil_iff.1 name) ho.name_ne
    | cons c cs =>
      have hc := ho.name_chars c (by rw [name]; exact List.mem_cons_self)
      simp only [write, Opening.write_eq, name, List.cons_append, List.append_assoc]
      exact lead_of_isNameChar hc _
  | @text content next ne _ _ =>
    cases first : Escape.text content.toList with
    | nil => exact absurd (String.toList_eq_nil_iff.1 (text_eq_nil_iff.1 first)) ne
    | cons c cs =>
      have mem : c ∈ Escape.text content.toList := by
        rw [first]
        exact List.mem_cons_self
      have notLt : c ≠ '<' := (ne_of_mem_text mem).1
      simp only [write, first, List.cons_append, List.append_assoc]
      unfold Lead.ofText
      split <;> simp_all [Lead.ofPieces]
  | comment _ _ => rfl
  | instruction _ _ _ => rfl

/-- Pieces that are written alike start alike. -/
theorem ofPieces_eq_of_write {f g : Forest (Piece Opening)} (hf : Readable f) (hg : Readable g)
    {r r' : List Char} (hr : Stops r) (hr' : Stops r') (h : write f ++ r = write g ++ r') :
    Lead.ofPieces f = Lead.ofPieces g := by
  rw [← lead_write hf hr, h, lead_write hg hr']

/-- What comes after a text is markup, or nothing. -/
theorem head_write {f : Forest (Piece Opening)} (hf : Readable f) {r : List Char} (hr : Stops r)
    (apart : ∀ s inner rest, f ≠ .node (.text s) inner rest) :
    ∀ c, (write f ++ r).head? = some c → (c != '<') = false := by
  have markup {c : Char} (hc : some '<' = some c) : (c != '<') = false := by
    rw [← Option.some.inj hc]
    rfl
  intro c hc
  cases hf with
  | nil =>
    rcases hr with rfl | ⟨s, rfl⟩
    · cases hc
    · exact markup hc
  | element _ _ _ => exact markup hc
  | text _ _ _ => exact absurd rfl (apart _ _ _)
  | comment _ _ => exact markup hc
  | instruction _ _ _ => exact markup hc

/-- The target and the data of a processing instruction, up to its end. -/
theorem writeInstruction_inj {target target' : String} {data data' : Option String}
    {r r' : List Char} (h : InstructionSound target data) (h' : InstructionSound target' data')
    (plain : ∀ s ∈ data, s ≠ "" ∧ '\r' ∉ s.toList) (plain' : ∀ s ∈ data', s ≠ "" ∧ '\r' ∉ s.toList)
    (eq : target.toList ++ (writeData data ++ (['?', '>'] ++ r)) =
      target'.toList ++ (writeData data' ++ (['?', '>'] ++ r'))) :
    target = target' ∧ data = data' ∧ r = r' := by
  have stops (data : Option String) (r : List Char) (c : Char)
      (hc : (writeData data ++ (['?', '>'] ++ r)).head? = some c) : isNameChar c = false := by
    unfold writeData at hc
    split at hc
    · obtain rfl : '?' = c := Option.some.inj hc
      decide
    · split at hc
      · obtain rfl : '?' = c := Option.some.inj hc
        decide
      · obtain rfl : ' ' = c := Option.some.inj hc
        decide
  obtain ⟨target_eq, eq⟩ :=
    append_inj_of_stop h.target_chars h'.target_chars (stops _ _) (stops _ _) eq
  refine ⟨String.toList_injective target_eq, ?_⟩
  -- plain data is written as it is
  have written {s : String} (hs : s ≠ "" ∧ '\r' ∉ s.toList) :
      writeData (some s) = ' ' :: s.toList := by
    rw [writeData, if_neg hs.1, Escape.instruction_eq_self hs.2]
  cases data with
  | none =>
    cases data' with
    | none => exact ⟨rfl, List.append_cancel_left eq⟩
    | some s' =>
      rw [written (plain' s' rfl)] at eq
      simp [writeData] at eq
  | some s =>
    rw [written (plain s rfl)] at eq
    cases data' with
    | none => simp [writeData] at eq
    | some s' =>
      rw [written (plain' s' rfl)] at eq
      obtain ⟨data_eq, rest⟩ := (h.data_unbroken s rfl).append_inj (h'.data_unbroken s' rfl)
        (List.cons.inj eq).2
      exact ⟨by rw [String.toList_injective data_eq], rest⟩

/-- Pieces can be read back from their text and what comes after them. -/
theorem write_append_inj {f g : Forest (Piece Opening)} (hf : Readable f) (hg : Readable g)
    {r r' : List Char} (hr : Stops r) (hr' : Stops r') (h : write f ++ r = write g ++ r') :
    f.map (Piece.map Opening.bare) = g.map (Piece.map Opening.bare) ∧ r = r' := by
  induction hf generalizing g r r' with
  | nil =>
    have lead := ofPieces_eq_of_write .nil hg hr hr' h
    cases hg with
    | nil => exact ⟨rfl, h⟩
    | _ => cases lead
  | @element o inner next ho hi hn ihInner ihNext =>
    have lead := ofPieces_eq_of_write (.element ho hi hn) hg hr hr' h
    cases hg with
    | @element o' inner' next' ho' hi' hn' =>
      simp only [write, List.append_assoc] at h
      obtain ⟨bare, name, h⟩ := Opening.write_inj ho ho' h
      have stops (o : Opening) (r : List Char) : Stops (o.writeEnd ++ r) := .inr ⟨_, rfl⟩
      obtain ⟨inner_eq, h⟩ := ihInner hi' (stops o _) (stops o' _) h
      rw [Opening.writeEnd, Opening.writeEnd, name] at h
      obtain ⟨next_eq, rest⟩ := ihNext hn' hr hr' (List.append_cancel_left h)
      exact ⟨by simp only [Forest.map, Piece.map, bare, inner_eq, next_eq], rest⟩
    | _ => cases lead
  | @text content next ne apart hn ih =>
    have lead := ofPieces_eq_of_write (.text ne apart hn) hg hr hr' h
    cases hg with
    | @text content' next' ne' apart' hn' =>
      simp only [write, List.append_assoc] at h
      have inside (s : String) : ∀ c ∈ Escape.text s.toList, (c != '<') = true :=
        fun c hc => by simpa using (ne_of_mem_text hc).1
      obtain ⟨text_eq, h⟩ := append_inj_of_stop (inside _) (inside _)
        (head_write hn hr apart) (head_write hn' hr' apart') h
      obtain ⟨next_eq, rest⟩ := ih hn' hr hr' h
      have content_eq := String.toList_injective (Escape.text_injective text_eq)
      exact ⟨by simp only [Forest.map, Piece.map, content_eq, next_eq], rest⟩
    | _ => cases lead
  | @comment content next unbroken hn ih =>
    have lead := ofPieces_eq_of_write (.comment unbroken hn) hg hr hr' h
    cases hg with
    | @comment content' next' unbroken' hn' =>
      simp only [write, List.append_assoc] at h
      obtain ⟨text_eq, h⟩ := unbroken.append_inj unbroken' (List.append_cancel_left h)
      obtain ⟨next_eq, rest⟩ := ih hn' hr hr' h
      exact ⟨by simp only [Forest.map, Piece.map, String.toList_injective text_eq, next_eq], rest⟩
    | _ => cases lead
  | @instruction target data next sound plain hn ih =>
    have lead := ofPieces_eq_of_write (.instruction sound plain hn) hg hr hr' h
    cases hg with
    | @instruction target' data' next' sound' plain' hn' =>
      simp only [write, List.append_assoc] at h
      obtain ⟨target_eq, data_eq, h⟩ :=
        writeInstruction_inj sound sound' plain plain' (List.append_cancel_left h)
      obtain ⟨next_eq, rest⟩ := ih hn' hr hr' h
      exact ⟨by simp only [Forest.map, Piece.map, target_eq, data_eq, next_eq], rest⟩
    | _ => cases lead

/-! ### Joining texts -/

theorem write_joinText (content : String) (f : Forest (Piece Opening)) :
    write (joinText content f) = Escape.text content.toList ++ write f := by
  unfold joinText
  split
  · simp only [write, String.toList_append, Escape.text_append, List.append_assoc]
  · by_cases empty : content = ""
    · rw [if_pos empty, empty]
      rfl
    · rw [if_neg empty]
      rfl

/-- Data that is not empty stays so. -/
theorem plainData_of_ne {s : String} (h : s ≠ "") :
    plainData (some s) = some (String.ofList (Escape.instruction s.toList)) ∧
      String.ofList (Escape.instruction s.toList) ≠ "" := by
  have each : Escape.instructionChar =
      fun c => if c = '\r' then ['&', '#', 'x', 'D', ';'] else [c] := by
    funext c
    unfold Escape.instructionChar
    split
    · rfl
    · next other => exact (if_neg other).symm
  refine ⟨by rw [plainData, if_neg h, Escape.instruction, each], fun empty => ?_⟩
  exact Escape.instruction_ne_nil (mt String.toList_eq_nil_iff.1 h)
    (String.ofList_eq_empty_iff.1 empty)

theorem writeData_plainData (data : Option String) : writeData (plainData data) = writeData data := by
  cases data with
  | none => rfl
  | some s =>
    by_cases empty : s = ""
    · rw [plainData, if_pos empty, writeData, writeData, if_pos empty]
    · obtain ⟨eq, ne⟩ := plainData_of_ne empty
      have again := Escape.instruction_eq_self (Escape.return_not_mem_instruction s.toList)
      rw [eq, writeData, if_neg ne, String.toList_ofList, again, writeData, if_neg empty]

/-- Joining texts does not change what is written. -/
theorem write_merged (f : Forest (Piece Opening)) : write (merged f) = write f := by
  induction f with
  | nil => rfl
  | node piece inner next ihInner ihNext =>
    cases piece with
    | element o => simp only [merged, write, ihInner, ihNext]
    | text content => simp only [merged, write, write_joinText, ihNext]
    | comment content => simp only [merged, write, ihNext]
    | instruction target data => simp only [merged, write, writeData_plainData, ihNext]
    | lineBreak => simp only [merged, write, ihNext]

theorem Readable.joinText {f : Forest (Piece Opening)} (hf : Readable f) (content : String) :
    Readable (joinText content f) := by
  unfold Canonical.joinText
  split
  · next s inner next =>
    cases hf with
    | text ne apart hn =>
      refine .text ?_ apart hn
      intro empty
      exact ne (String.append_eq_empty_iff.1 empty).2
  · next other =>
    by_cases empty : content = ""
    · rw [if_pos empty]
      exact hf
    · rw [if_neg empty]
      exact .text empty (fun s inner rest eq => other s inner rest eq) hf

theorem plainData_sound {target : String} {data : Option String}
    (h : InstructionSound target data) :
    InstructionSound target (plainData data) ∧ ∀ s ∈ plainData data, s ≠ "" ∧ '\r' ∉ s.toList := by
  have each : ∀ s ∈ plainData data,
      Unbroken ['?', '>'] s.toList ∧ s ≠ "" ∧ '\r' ∉ s.toList := by
    intro s hs
    cases data with
    | none => cases hs
    | some t =>
      by_cases empty : t = ""
      · simp [plainData, empty] at hs
      · obtain ⟨eq, ne⟩ := plainData_of_ne empty
        rw [eq] at hs
        obtain rfl := Option.some.inj hs
        rw [String.toList_ofList]
        exact ⟨Escape.unbroken_instruction (h.data_unbroken t rfl), ne,
          Escape.return_not_mem_instruction _⟩
  exact ⟨⟨h.target_ne, h.target_chars, fun s hs => (each s hs).1⟩, fun s hs => (each s hs).2⟩

/-! ### Start tags of sound elements -/

section Tags

variable {inclusive : List String} {scope written : Scope} {e : Element}

theorem isNameChar_qualified {pfx : Option String} {name : String} {uri : Option String}
    (hp : ∀ c ∈ (pfx.getD "").toList, isNameChar c = true) (hn : IsNCName name) :
    ∀ c ∈ (QName.qualified ⟨pfx, name, uri⟩).toList, isNameChar c = true := by
  have local_chars : ∀ c ∈ name.toList, isNameChar c = true := fun c hc => (hn.2 c hc).1
  intro c hc
  cases pfx with
  | none => exact local_chars c hc
  | some p =>
    by_cases empty : p = ""
    · simp only [QName.qualified, empty, if_true] at hc
      exact local_chars c hc
    · simp only [QName.qualified, empty, if_false, String.toList_append, List.mem_append] at hc
      rcases hc with (hc | hc) | hc
      · exact hp c hc
      · obtain rfl : c = ':' := by simpa using hc
        decide
      · exact local_chars c hc

theorem qualified_ne_empty {name : QName} (h : IsNCName name.localName) : name.qualified ≠ "" := by
  unfold QName.qualified
  split
  · split
    · exact h.ne_empty
    · simp
  · exact h.ne_empty

/-- The start tag of a sound and consistent element can be read back. -/
theorem readable_ofElement (sound : Namespaces.Sound scope) (he : e.Sound)
    (consistent : e.Consistent scope) (ordinary : ∀ a ∈ e.attributes, attributePfx a ≠ "xmlns") :
    (Opening.ofElement inclusive scope written e).Readable where
  name_ne := qualified_ne_empty he.localName
  name_chars := isNameChar_qualified (fun _ hc => he.pfx.isNameChar hc) he.localName
  declarations := by
    intro d hd c hc
    exact (isPfx_rendered sound hd).isNameChar hc
  attributes := by
    intro b hb
    obtain ⟨a, ha, rfl⟩ := List.mem_map.1 (Sorting.mem_sort.1 hb)
    refine ⟨isNameChar_qualified (fun c hc => ?_) (he.attributes a ha).1,
      isDeclaration_writtenAttribute sound he consistent ha (ordinary a ha)⟩
    change c ∈ (attributePfx a).toList at hc
    rcases attributePfx_cases sound consistent ha with ⟨eq, -⟩ | ⟨eq, -⟩ | ⟨uri, -, -, -, isPfx⟩
    · simp [eq] at hc
    · have all : "xml".toList.all isNameChar = true := by decide
      rw [eq] at hc
      exact List.all_eq_true.1 all c hc
    · exact isPfx.isNameChar hc

theorem readable_merged_render {f : Forest (Piece Element)} (hs : Namespaces.Sound scope)
    (hf : Legible scope f) : Readable (merged (render inclusive scope written f)) := by
  induction hf generalizing written with
  | nil => exact .nil
  | element sound consistent ordinary _ _ ihInner ihNext =>
    have inside := hs.declare sound.declarations
    exact .element (readable_ofElement inside sound consistent ordinary) (ihInner inside) (ihNext hs)
  | text _ ih => exact (ih hs).joinText _
  | comment unbroken _ ih => exact .comment unbroken (ih hs)
  | instruction sound _ ih =>
    obtain ⟨sound, plain⟩ := plainData_sound sound
    exact .instruction sound plain (ih hs)

end Tags

end Canonical

namespace Xml.Document

open Canonical

variable {d d' : Document} {apex apex' : NodeId} {excluded excluded' : Option NodeId}

/-! ### What a form says and what the document says -/

/-- In all elements an attribute without namespace has no prefix, and one in the namespace of XML
has the prefix `xml`. -/
def Paired (d : Document) : Prop :=
  ∀ x e, d.element? x = some e → ∀ a ∈ e.attributes, (a.name.uri = none → a.name.pfx = none) ∧
    (a.name.uri = some Namespace.xml → a.name.pfx = some "xml")

/-- The names of attributes are paired with their namespaces when they are read, and whatever is
set has a name without prefix. -/
theorem Revised.paired (hd : d.Revised) : d.Paired := by
  induction hd with
  | parse h => exact fun x e he => ((Fit.parse h).element (Reachable.parse h).linked he).unbound
  | setText _ h ih =>
    intro x e he
    exact ih x e (element?_setText h x ▸ he)
  | setAttribute _ _ _ h ih =>
    obtain ⟨e, he, rfl⟩ := setAttribute_cases h
    intro x e' he' a ha
    rw [element?_replaceElement he] at he'
    split at he'
    · obtain rfl := Option.some.inj he'
      rcases mem_set ha with eq | ⟨b, hb, eq⟩
      · rw [eq]
        exact ⟨fun _ => rfl, nofun⟩
      · rw [eq]
        exact ih _ e he b hb
    · exact ih x e' he' a ha

/-- The name that is written is the one of the attribute. -/
theorem writtenAttribute_eq_content {a : Attribute} (bare : a.name.uri = none → a.name.pfx = none)
    (xml : a.name.uri = some Namespace.xml → a.name.pfx = some "xml") :
    writtenAttribute a = a.content := by
  obtain ⟨⟨pfx, localName, uri⟩, value⟩ := a
  cases uri with
  | none =>
    obtain rfl : pfx = none := bare rfl
    rfl
  | some uri =>
    by_cases isXml : uri = Namespace.xml
    · subst isXml
      obtain rfl : pfx = some "xml" := xml rfl
      rfl
    · have written : Canonical.attributePfx ⟨⟨pfx, localName, some uri⟩, value⟩ = pfx.getD "" :=
        if_neg isXml
      rw [writtenAttribute, written]
      cases pfx <;> rfl

theorem ofElement_eq_content (paired : d.Paired) {x : NodeId} {e : Element}
    (he : d.element? x = some e) : ElementContent.ofElement e = e.content := by
  have names : e.attributes.map writtenAttribute = e.attributes.map Attribute.content :=
    List.map_congr_left fun a ha =>
      writtenAttribute_eq_content (paired x e he a ha).1 (paired x e he a ha).2
  have order : WrittenAttribute.le =
      fun a b => decide (a.uri < b.uri ∨ a.uri = b.uri ∧ a.localName ≤ b.localName) := by
    funext a b
    simp only [WrittenAttribute.le, Bool.decide_or, Bool.decide_and, Bool.beq_eq_decide_eq]
  rw [ElementContent.ofElement, sortedAttributes, names, order]
  rfl

/-- What is retained of some nodes other than node 0 is what they say. -/
theorem merged_retain (hd : d.Sound) (paired : d.Paired) (linked : d.Linked) (comments : Bool)
    {ids : List NodeId} {f : Forest (NodeId × Kind)} (hf : d.Shows ids f)
    (notRoot : ∀ a ∈ ids, a ≠ root) :
    merged ((retain excluded comments .inside f).map (Piece.map .ofElement)) =
      f.content excluded comments := by
  induction hf with
  | nil => rfl
  | @node id kind ids inner next hk hi hn ihInner ihNext =>
    have rest := ihNext fun a ha => notRoot a (List.mem_cons_of_mem _ ha)
    have inside := ihInner fun c hc => linked.child_ne_root hc
    have sound := hd id kind (notRoot id List.mem_cons_self) hk
    rw [retain_node, Forest.content_node]
    by_cases ex : excluded = some id
    · rw [if_pos ex, if_pos ex]
      exact rest
    rw [if_neg ex, if_neg ex, ← rest, ← inside]
    cases kind with
    | document => exact sound.elim
    | element e =>
      dsimp only
      rw [← ofElement_eq_content paired (element?_of_kind? hk)]
      rfl
    | text content => rfl
    | comment content => cases comments <;> rfl
    | instruction target data => rfl

/-- What the canonical form of an element says is what the document says there. -/
theorem reading_eq_content (hd : d.Sound) (paired : d.Paired) (linked : d.Linked) {e : Element}
    (he : d.element? apex = some e) (comments : Bool) :
    d.reading apex excluded comments = d.content apex excluded comments := by
  have hk := kind?_of_element? he
  have inside : d.place apex = .inside := by rw [place, hk]
  rw [reading, retained, inside]
  refine merged_retain hd paired linked comments (shows_singleton linked hk) fun a ha => ?_
  rw [List.mem_singleton.1 ha]
  exact linked.ne_root he

/-! ### Canonical forms -/

/-- The canonical form of an element is written from pieces that can be read back, and reading them
gives what the form says. -/
theorem canonical_readable (hd : d.Sound) (linked : d.Linked) {e : Element}
    (he : d.element? apex = some e) (consistent : d.ConsistentBelow apex)
    (ordinary : d.OrdinaryBelow apex excluded) (comments : Bool) (inclusive : List String) :
    ∃ f, Readable f ∧ decode [] f = d.reading apex excluded comments ∧
      d.canonical apex excluded comments inclusive = .ok (String.ofList (Canonical.write f)) := by
  have hk := kind?_of_element? he
  have scope := (hd.scope linked apex).1
  have legible : Legible (d.scopeAround apex) (d.retained apex excluded comments) := by
    have inside : d.place apex = .inside := by rw [place, hk]
    rw [retained, inside]
    refine legible_retain hd linked consistent ordinary comments
      (shows_singleton linked hk) ?_ ?_
    · intro a ha
      obtain rfl := List.mem_singleton.1 ha
      exact ⟨.refl, linked.ne_root he, rfl⟩
    · intro a ha s hs below above
      obtain rfl := List.mem_singleton.1 ha
      exact Nat.le_antisymm (below.le linked) (above.le linked)
  refine ⟨merged (d.rendered apex excluded comments inclusive), readable_merged_render scope legible,
    ?_, ?_⟩
  · rw [decode_merged, rendered, decode_render scope legible]
    rfl
  · rw [canonical, hk, write_merged]
    rfl

/-- Equal canonical forms say the same. -/
theorem reading_eq_of_canonical (hd : d.Sound) (hd' : d'.Sound) (linked : d.Linked)
    (linked' : d'.Linked) {e e' : Element} (he : d.element? apex = some e)
    (he' : d'.element? apex' = some e') (consistent : d.ConsistentBelow apex)
    (consistent' : d'.ConsistentBelow apex') (ordinary : d.OrdinaryBelow apex excluded)
    (ordinary' : d'.OrdinaryBelow apex' excluded') {comments comments' : Bool}
    {inclusive inclusive' : List String}
    (same : d.canonical apex excluded comments inclusive =
      d'.canonical apex' excluded' comments' inclusive') :
    d.reading apex excluded comments = d'.reading apex' excluded' comments' := by
  obtain ⟨f, hf, content, form⟩ :=
    canonical_readable hd linked he consistent ordinary comments inclusive
  obtain ⟨g, hg, content', form'⟩ :=
    canonical_readable hd' linked' he' consistent' ordinary' comments' inclusive'
  have text : Canonical.write f ++ [] = Canonical.write g ++ [] := by
    rw [form, form'] at same
    simpa using String.ofList_injective (Except.ok.inj same)
  obtain ⟨bare, -⟩ := write_append_inj hf hg (.inl rfl) (.inl rfl) text
  calc d.reading apex excluded comments
      = decode [] (f.map (Piece.map Opening.bare)) := by rw [decode_bare, content]
    _ = decode [] (g.map (Piece.map Opening.bare)) := by rw [bare]
    _ = d'.reading apex' excluded' comments' := by rw [decode_bare, content']

/-- Equal canonical forms come from equal contents. -/
theorem Revised.content_eq_of_canonical (hd : d.Revised) (hd' : d'.Revised) {e e' : Element}
    (he : d.element? apex = some e) (he' : d'.element? apex' = some e')
    (consistent : d.ConsistentBelow apex) (consistent' : d'.ConsistentBelow apex')
    (ordinary : d.OrdinaryBelow apex excluded) (ordinary' : d'.OrdinaryBelow apex' excluded')
    {comments comments' : Bool} {inclusive inclusive' : List String}
    (same : d.canonical apex excluded comments inclusive =
      d'.canonical apex' excluded' comments' inclusive') :
    d.content apex excluded comments = d'.content apex' excluded' comments' := by
  have linked := hd.reachable.linked
  have linked' := hd'.reachable.linked
  rw [← reading_eq_content hd.sound hd.paired linked he,
    ← reading_eq_content hd'.sound hd'.paired linked' he']
  exact reading_eq_of_canonical hd.sound hd'.sound linked linked' he he' consistent consistent'
    ordinary ordinary' same

end Xml.Document

/-- **Canonical form determines content.**  Take two documents that were read and then changed by
setting texts and attributes, and in each of them an element below which all names mean what they
were resolved to.  If the two have the same canonical form, whatever is left out, whether or not
comments are kept and whatever prefixes are taken along, then they have the same content, as long as
no attribute is written with the prefix `xmlns`. -/
theorem canonical_injective {d d' : Document} (hd : d.Revised) (hd' : d'.Revised)
    {apex apex' : NodeId} {e e' : Element} (he : d.element? apex = some e)
    (he' : d'.element? apex' = some e') {excluded excluded' : Option NodeId}
    (consistent : d.ConsistentBelow apex) (consistent' : d'.ConsistentBelow apex')
    (ordinary : d.OrdinaryBelow apex excluded) (ordinary' : d'.OrdinaryBelow apex' excluded')
    {comments comments' : Bool} {inclusive inclusive' : List String}
    (same : d.canonical apex excluded comments inclusive =
      d'.canonical apex' excluded' comments' inclusive') :
    d.content apex excluded comments = d'.content apex' excluded' comments' :=
  hd.content_eq_of_canonical hd' he he' consistent consistent' ordinary ordinary' same

/-- An element with a comment, a text and a processing instruction. -/
def spelled : Document := ⟨#[⟨.document, none, [1]⟩,
  ⟨.element ⟨⟨some "p", "a", some "urn:p"⟩,
    [⟨⟨some "q", "y", some "urn:q"⟩, "1"⟩, ⟨⟨none, "x", none⟩, "2"⟩],
    [⟨"p", "urn:p"⟩, ⟨"q", "urn:q"⟩]⟩, some 0, [2, 3, 4]⟩,
  ⟨.comment "c", some 1, []⟩, ⟨.text "t<", some 1, []⟩, ⟨.instruction "i" none, some 1, []⟩]⟩

/-- The same element in other words and without the comment. -/
def respelled : Document := ⟨#[⟨.document, none, [1]⟩,
  ⟨.element ⟨⟨some "p", "a", some "urn:p"⟩,
    [⟨⟨none, "x", none⟩, "2"⟩, ⟨⟨some "q", "y", some "urn:q"⟩, "1"⟩],
    [⟨"p", "urn:p"⟩, ⟨"q", "urn:q"⟩]⟩, some 0, [2, 3]⟩,
  ⟨.text "t<", some 1, []⟩, ⟨.instruction "i" none, some 1, []⟩]⟩

theorem canonical_injective_respelled : spelled ≠ respelled ∧
    Document.parse
      "<p:a xmlns:p='urn:p' xmlns:q='urn:q' q:y='1' x='2'><!--c-->t&lt;<?i ?></p:a>" =
      .ok spelled ∧
    Document.parse
      "<p:a x='2' xmlns:q='urn:q' q:y='1' xmlns:p='urn:p'>t<![CDATA[<]]><?i?></p:a>" =
      .ok respelled ∧
    spelled.content 1 none false = respelled.content 1 none true := by
  have read : Document.parse
      "<p:a xmlns:p='urn:p' xmlns:q='urn:q' q:y='1' x='2'><!--c-->t&lt;<?i ?></p:a>" =
      .ok spelled := Document.parse_eq_ok (by decide +kernel)
  have read' : Document.parse
      "<p:a x='2' xmlns:q='urn:q' q:y='1' xmlns:p='urn:p'>t<![CDATA[<]]><?i?></p:a>" =
      .ok respelled := Document.parse_eq_ok (by decide +kernel)
  have same : spelled.canonical 1 none false [] = respelled.canonical 1 none true ["p"] :=
    (Document.canonical_eq_ok rfl (by decide +kernel)).trans (Document.canonical_eq_ok rfl rfl).symm
  exact ⟨by decide, read, read', canonical_injective (.parse read) (.parse read') rfl rfl
    (Document.consistentBelow_of_rows (by decide +kernel) 1)
    (Document.consistentBelow_of_rows (by decide +kernel) 1)
    (Document.ordinaryBelow_of_rows (by decide +kernel) 1 none)
    (Document.ordinaryBelow_of_rows (by decide +kernel) 1 none) same⟩

/-- An element with an attribute that got the prefix `xmlns`: its start tag holds a name that is
taken for a declaration by one reader and for an attribute by the other one, so the prefix is looked
up by its namespace. -/
def disguised : Document := ⟨#[⟨.document, none, [1]⟩,
  ⟨.element ⟨⟨none, "a", some "urn:d"⟩, [⟨⟨some "xmlns", "z", some "urn:u"⟩, "v"⟩],
    [⟨"", "urn:d"⟩, ⟨"xmlns", "urn:u"⟩, ⟨"z", "urn:u"⟩]⟩, some 0, []⟩]⟩

/-- An element with a declaration in place of that attribute. -/
def declared : Document := ⟨#[⟨.document, none, [1]⟩,
  ⟨.element ⟨⟨none, "a", some "urn:d"⟩, [], [⟨"", "urn:d"⟩, ⟨"xmlns", "urn:u"⟩, ⟨"z", "v"⟩]⟩,
    some 0, []⟩]⟩

/-- Where an attribute is written with the prefix `xmlns`, canonical form does not determine
content: the attribute is written as a declaration would be. -/
theorem canonical_not_injective :
    Document.parse "<a xmlns:xmlns='urn:u' xmlns:z='urn:u' z:xmlns='urn:d' z:z='v'/>" =
      .ok disguised ∧
    Document.parse "<a xmlns='urn:d' xmlns:xmlns='urn:u' xmlns:z='v'/>" = .ok declared ∧
    disguised.ConsistentBelow Document.root ∧ declared.ConsistentBelow Document.root ∧
    disguised.canonical 1 none false [] = declared.canonical 1 none false ["xmlns", "z"] ∧
    disguised.content 1 none false ≠ declared.content 1 none false :=
  ⟨Document.parse_eq_ok (by decide +kernel), Document.parse_eq_ok (by decide +kernel),
    Document.consistentBelow_of_rows (by decide +kernel) _,
    Document.consistentBelow_of_rows (by decide +kernel) _,
    (Document.canonical_eq_ok rfl (by decide +kernel)).trans (Document.canonical_eq_ok rfl rfl).symm,
    by decide +kernel⟩

end SamlSeal
