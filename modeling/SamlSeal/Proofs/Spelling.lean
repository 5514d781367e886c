import SamlSeal.Proofs.Escaping
import SamlSeal.Proofs.Lexical
import SamlSeal.Proofs.Scanning
import SamlSeal.Xml.Writing

/-!
# Tokens that are written down

Start tags, end tags, comments, processing instructions and texts, as they are written, are read as
what they are.  Whatever comes after them is left over.  What is asked of them is that they fit
where they stand (`Item.Fits`): names are names, texts hold characters of XML only, and nothing
holds what would end it.

* `Token.next?_tag`: a start tag is read, and the names in it are found again (`Item.Exact`),
* `Token.next?_stop`, `next?_comment`, `next?_instruction`, `next?_text`: everything else.
-/

namespace SamlSeal.Xml

/-! ### Writing -/

/-- A name as it stands in markup. -/
def WrittenName.print (n : WrittenName) : List Char :=
  (if n.pfx = "" then [] else n.pfx.toList ++ [':']) ++ n.localName.toList

/-- A name and a value as they stand in a start tag, with a space in front. -/
def printAttribute (a : WrittenName × String) : List Char :=
  ' ' :: a.1.print ++ ['=', '"'] ++ Escape.value a.2.toList ++ ['"']

/-- A start tag without its closing bracket. -/
def Tag.print (t : Tag) : List Char := '<' :: t.name.print ++ t.attributes.flatMap printAttribute

/-! ### Names -/

theorem isNameChar_of_isNameStart {c : Char} (h : isNameStart c = true) : isNameChar c = true := by
  rw [isNameStart] at h
  rw [isNameChar, h, Bool.true_or]

theorem isSpace_of_isNameChar {c : Char} (h : isNameChar c = true) : isSpace c = false := by
  refine Bool.eq_false_iff.2 fun space => ?_
  simp only [isSpace, Bool.or_eq_true, beq_iff_eq] at space
  rcases space with ((rfl | rfl) | rfl) | rfl <;> exact absurd h (by decide)

namespace WrittenName

variable {n : WrittenName}

theorem Sound.print_chars (h : n.Sound) : ∀ c ∈ n.print, isNameChar c = true := by
  intro c hc
  rcases List.mem_append.1 hc with hc | hc
  · split at hc
    · cases hc
    · next ne =>
      rcases List.mem_append.1 hc with hc | hc
      · exact ((h.pfx.resolve_left ne).2 c hc).1
      · rw [List.mem_singleton.1 hc]
        decide
  · exact (h.localName.2 c hc).1

theorem Sound.print_start (h : n.Sound) : startsName n.print = true := by
  rw [print]
  split
  · exact h.localName.1
  · next ne =>
    have starts := (h.pfx.resolve_left ne).1
    cases eq : n.pfx.toList with
    | nil =>
      rw [eq] at starts
      cases starts
    | cons c cs =>
      rw [eq] at starts
      exact starts

theorem Sound.print_cases (h : n.Sound) :
    ∃ c cs, n.print = c :: cs ∧ isNameStart c = true := by
  have starts := h.print_start
  cases eq : n.print with
  | nil =>
    rw [eq] at starts
    cases starts
  | cons c cs =>
    rw [eq] at starts
    exact ⟨c, cs, rfl, starts⟩

/-- Splitting a written name gives its two parts. -/
theorem ofWord?_print (h : n.Sound) : ofWord? n.print = some n := by
  have notColon {s : String} (hs : IsNCName s) : ∀ c ∈ s.toList, (c != ':') = true :=
    fun c hc => by simpa using (hs.2 c hc).2
  rw [ofWord?, print, List.span_eq_takeWhile_dropWhile]
  by_cases empty : n.pfx = ""
  · have all := notColon h.localName
    rw [if_pos empty, List.nil_append, List.takeWhile_eq_self_iff.2 all,
      List.dropWhile_eq_nil_iff.2 all]
    simp only [h.localName.1, if_true, String.ofList_toList, ← empty]
  · have sound := h.pfx.resolve_left empty
    have stop : ∀ c ∈ (':' :: n.localName.toList).head?, (c != ':') = false := by simp
    obtain ⟨taken, dropped⟩ := span_of_stop (notColon sound) stop
    have free : n.localName.toList.contains ':' = false := by
      simpa using h.localName.colon_not_mem
    rw [if_neg empty, List.append_assoc, List.singleton_append, taken, dropped]
    simp only [sound.1, h.localName.1, free, Bool.or_true, Bool.not_false, Bool.and_self, if_true,
      String.ofList_toList]

/-- A name is read where it stands, if no more characters of names come after it. -/
theorem read?_print (h : n.Sound) {rest : List Char}
    (stop : ∀ c ∈ rest.head?, isNameChar c = false) :
    WrittenName.read? (n.print ++ rest) = some (n, rest) := by
  obtain ⟨taken, dropped⟩ := span_of_stop h.print_chars stop
  rw [WrittenName.read?, taken, dropped, ofWord?_print h]
  rfl

end WrittenName

/-! ### Start tags -/

/-- A name and a value can be written in a start tag. -/
def AttributeFits (a : WrittenName × String) : Prop :=
  a.1.Sound ∧ ∀ c ∈ a.2.toList, isChar c = true

section Attributes

variable {a : WrittenName × String} {as : List (WrittenName × String)} {rest : List Char}

theorem stop_at {p : Char → Bool} {b : Char} (hb : p b = false) (rest : List Char) :
    ∀ c ∈ (b :: rest).head?, p c = false := by
  rintro c hc
  obtain rfl := Option.some.inj hc
  exact hb

theorem quoted?_printAttribute (h : AttributeFits a) (rest : List Char) :
    quoted? (a.1.print ++ '=' :: '"' :: (Escape.value a.2.toList ++ '"' :: rest)) =
      some (a.1, Escape.value a.2.toList, rest) := by
  have inside : ∀ c ∈ Escape.value a.2.toList, (c != '"' && c != '<') = true :=
    fun c hc => by simpa using ne_of_mem_value hc
  obtain ⟨taken, dropped⟩ := span_of_stop inside (stop_at (b := '"') (by decide) rest)
  have chars : (Escape.value a.2.toList).all isChar = true :=
    List.all_eq_true.2 fun c hc => isChar_value h.2 hc
  have sign (cs : List Char) : ('=' :: cs).dropWhile isSpace = '=' :: cs := rfl
  have quote (cs : List Char) : ('"' :: cs).dropWhile isSpace = '"' :: cs := rfl
  rw [quoted?, WrittenName.read?_print h.1 (stop_at (by decide) _)]
  simp only [bind, Option.bind_some, sign, quote, taken, dropped, chars, true_or, if_true, and_self]

theorem flatMap_printAttribute (a : WrittenName × String) (as : List (WrittenName × String))
    (tail : List Char) : (a :: as).flatMap printAttribute ++ tail = ' ' :: (a.1.print ++
      '=' :: '"' :: (Escape.value a.2.toList ++ '"' :: (as.flatMap printAttribute ++ tail))) := by
  simp [printAttribute]

/-- Attributes that are written in a start tag are read one by one. -/
theorem attributes?_print (fits : ∀ a ∈ as, AttributeFits a) {n : Nat} (hn : as.length < n)
    {tail : List Char} {closed : Bool}
    (ends : tail = '>' :: rest ∧ closed = false ∨ tail = '/' :: '>' :: rest ∧ closed = true) :
    attributes? n (as.flatMap printAttribute ++ tail) = some (as, closed, rest) := by
  induction as generalizing n with
  | nil =>
    obtain ⟨n, rfl⟩ := Nat.exists_eq_succ_of_ne_zero (Nat.ne_of_gt hn)
    rcases ends with ⟨rfl, rfl⟩ | ⟨rfl, rfl⟩ <;> rfl
  | cons a as ih =>
    obtain ⟨n, rfl⟩ := Nat.exists_eq_succ_of_ne_zero (Nat.ne_of_gt (Nat.zero_lt_of_lt hn))
    obtain ⟨here, later⟩ := List.forall_mem_cons.1 fits
    obtain ⟨b, bs, eq, start⟩ := here.1.print_cases
    have nameChar := isNameChar_of_isNameStart start
    have noSpace : isSpace b = false := isSpace_of_isNameChar nameChar
    have quoted := quoted?_printAttribute here (as.flatMap printAttribute ++ tail)
    rw [flatMap_printAttribute, attributes?, List.dropWhile_cons_of_pos (by decide)]
    rw [eq, List.cons_append] at quoted ⊢
    rw [List.dropWhile_cons_of_neg (by simp [noSpace])]
    split
    · next eq => exact absurd nameChar (by rw [(List.cons.inj eq).1]; decide)
    · next eq => exact absurd nameChar (by rw [(List.cons.inj eq).1]; decide)
    · simp only [List.head?_cons, Option.any_some, show isSpace ' ' = true from rfl, if_true, quoted,
        attributeValue_value, ih later (Nat.lt_of_succ_lt_succ hn), bind, Option.bind_some,
        String.ofList_toList]

/-- Printed attributes are written with their names as words. -/
theorem written_print (fits : ∀ a ∈ as, AttributeFits a) {tail : List Char} {closed : Bool}
    (ends : tail = '>' :: rest ∧ closed = false ∨ tail = '/' :: '>' :: rest ∧ closed = true) :
    StartTag.Attributes (as.map (·.1.print)) (as.flatMap printAttribute ++ tail) := by
  have none : StartTag.IsGaps [] := List.forall_mem_nil _
  induction as with
  | nil =>
    rcases ends with ⟨rfl, -⟩ | ⟨rfl, -⟩
    · exact .stop none
    · exact .close none
  | cons a as ih =>
    obtain ⟨here, later⟩ := List.forall_mem_cons.1 fits
    obtain ⟨b, bs, eq, -⟩ := here.1.print_cases
    have nonempty : a.1.print ≠ [] := eq ▸ List.cons_ne_nil b bs
    have blank : StartTag.IsGaps [' '] := List.forall_mem_singleton.2 rfl
    have inside : '"' ∉ Escape.value a.2.toList := fun mem => (ne_of_mem_value mem).1 rfl
    rw [flatMap_printAttribute, List.map_cons]
    exact .cons (List.cons_ne_nil _ _) blank (isWord_of_chars nonempty here.1.print_chars) none none
      (.inl rfl) inside (ih later)

end Attributes

/-! ### Tokens -/

/-- A start tag can be written. -/
structure Tag.Fits (t : Tag) : Prop where
  name : t.name.Sound
  attributes : ∀ a ∈ t.attributes, AttributeFits a

/-- A comment can be written. -/
structure CommentFits (content : String) : Prop where
  chars : ∀ c ∈ content.toList, isChar c = true
  hyphens : occursIn ['-', '-'] content.toList = false
  last : content.toList.getLast? ≠ some '-'
  unbroken : Unbroken ['-', '-', '>'] content.toList

/-- A processing instruction can be written.  Its data is not empty and does not start with white
space, which would be taken for the gap in front of the data. -/
structure InstructionFits (target : String) (data : Option String) : Prop where
  start : WrittenName.startsName target.toList = true
  chars : ∀ c ∈ target.toList, isNameChar c = true
  data : ∀ s ∈ data, s ≠ "" ∧ (∀ c ∈ s.toList, isChar c = true) ∧
    (∀ c ∈ s.toList.head?, isSpace c = false) ∧ Unbroken ['?', '>'] s.toList

/-- What a node of some markup has to satisfy so that it can be written and read again. -/
def Item.Fits : Item → Prop
  | .element _ tag => tag.Fits
  | .text content => ∀ c ∈ content.toList, isChar c = true
  | .comment content => CommentFits content
  | .instruction target data => InstructionFits target data

/-- The scan of a start tag finds the names as they are printed. -/
def Item.Exact : Item → Prop
  | .element source tag => StartTag.scan source = some ⟨String.ofList tag.name.print,
      ((tag.attributes.map (·.1.print)).filter (!StartTag.isDeclaration ·)).map String.ofList⟩
  | _ => True

namespace Token

variable {rest : List Char}

theorem length_le_flatMap (as : List (WrittenName × String)) :
    as.length ≤ (as.flatMap printAttribute).length := by
  induction as with
  | nil => exact Nat.le_refl _
  | cons a as ih =>
    rw [List.flatMap_cons, List.length_append, List.length_cons, printAttribute]
    simp only [List.cons_append, List.length_cons]
    omega

theorem next?_start {b : Char} (h : isNameStart b = true) (cs : List Char) :
    next? ('<' :: b :: cs) = start? (b :: cs) := by
  have ne {c : Char} (hc : isNameStart c = false) : b ≠ c := by
    rintro rfl
    exact Bool.false_ne_true (hc.symm.trans h)
  unfold next?
  split
  · next eq => exact absurd (List.cons.inj (List.cons.inj eq).2).1 (ne rfl)
  · next eq => exact absurd (List.cons.inj (List.cons.inj eq).2).1 (ne rfl)
  · next eq => exact absurd (List.cons.inj (List.cons.inj eq).2).1 (ne rfl)
  · next eq => exact absurd (List.cons.inj (List.cons.inj eq).2).1 (ne rfl)
  · next eq => exact absurd (List.cons.inj (List.cons.inj eq).2).1 (ne rfl)
  · next eq => rw [(List.cons.inj eq).2]
  · next other => exact absurd rfl (other _)

/-- What comes after the name of a start tag is no part of it. -/
theorem head_attributes (as : List (WrittenName × String)) {tail : List Char} {closed : Bool}
    (ends : tail = '>' :: rest ∧ closed = false ∨ tail = '/' :: '>' :: rest ∧ closed = true) :
    ∃ c cs, as.flatMap printAttribute ++ tail = c :: cs ∧ (c = ' ' ∨ c = '>' ∨ c = '/') := by
  cases as with
  | nil =>
    rcases ends with ⟨rfl, -⟩ | ⟨rfl, -⟩
    · exact ⟨_, _, rfl, .inr (.inl rfl)⟩
    · exact ⟨_, _, rfl, .inr (.inr rfl)⟩
  | cons a as => exact ⟨_, _, flatMap_printAttribute a as tail, .inl rfl⟩

/-- A printed start tag is read, and its names are found again. -/
theorem next?_tag {t : Tag} (fits : t.Fits) {tail : List Char} {closed : Bool}
    (ends : tail = '>' :: rest ∧ closed = false ∨ tail = '/' :: '>' :: rest ∧ closed = true) :
    next? (t.print ++ tail) = some (start (t.print ++ tail) t closed, rest) ∧
      Item.Exact (.element (t.print ++ tail) t) := by
  have text : t.print ++ tail =
      '<' :: (t.name.print ++ (t.attributes.flatMap printAttribute ++ tail)) := by
    simp [Tag.print]
  obtain ⟨b, bs, eq, starts⟩ := fits.name.print_cases
  obtain ⟨c, cs, after, hc⟩ := head_attributes t.attributes ends
  have enough : t.attributes.length <
      (t.name.print ++ (t.attributes.flatMap printAttribute ++ tail)).length := by
    have := length_le_flatMap t.attributes
    rw [eq, List.length_append, List.length_append, List.length_cons]
    omega
  have name : WrittenName.read? (t.name.print ++ (t.attributes.flatMap printAttribute ++ tail)) =
      some (t.name, t.attributes.flatMap printAttribute ++ tail) := by
    refine WrittenName.read?_print fits.name ?_
    rw [after]
    exact stop_at (by rcases hc with rfl | rfl | rfl <;> decide) cs
  have read := attributes?_print fits.attributes enough ends
  refine ⟨?_, ?_⟩
  · have step : next? ('<' :: (t.name.print ++ (t.attributes.flatMap printAttribute ++ tail))) =
        start? (t.name.print ++ (t.attributes.flatMap printAttribute ++ tail)) := by
      rw [eq]
      exact next?_start starts _
    rw [text, step, start?, name]
    simp only [bind, Option.bind_some, read]
  · rw [text]
    have nonempty : t.name.print ≠ [] := eq ▸ List.cons_ne_nil b bs
    exact StartTag.scan_of_written (.intro (isWord_of_chars nonempty fits.name.print_chars)
      (written_print fits.attributes ends))

theorem next?_stop {n : WrittenName} (h : n.Sound) (rest : List Char) :
    next? (['<', '/'] ++ n.print ++ ['>'] ++ rest) = some (stop n, rest) := by
  have text : ['<', '/'] ++ n.print ++ ['>'] ++ rest = '<' :: '/' :: (n.print ++ '>' :: rest) := by
    simp
  have step : next? ('<' :: '/' :: (n.print ++ '>' :: rest)) = stop? (n.print ++ '>' :: rest) := rfl
  have space : ('>' :: rest).dropWhile isSpace = '>' :: rest := rfl
  rw [text, step, stop?, WrittenName.read?_print h (stop_at (by decide) rest)]
  simp only [bind, Option.bind_some, space]

theorem next?_comment {content : String} (h : CommentFits content) (rest : List Char) :
    next? (['<', '!', '-', '-'] ++ content.toList ++ ['-', '-', '>'] ++ rest) =
      some (comment content, rest) := by
  have text : ['<', '!', '-', '-'] ++ content.toList ++ ['-', '-', '>'] ++ rest =
      '<' :: '!' :: '-' :: '-' :: (content.toList ++ (['-', '-', '>'] ++ rest)) := by simp
  have step (cs : List Char) : next? ('<' :: '!' :: '-' :: '-' :: cs) = comment? cs := rfl
  have chars : content.toList.all isChar = true := List.all_eq_true.2 h.chars
  have open' : (occursIn ['-', '-'] content.toList || content.toList.getLast? == some '-') =
      false := by
    simp [h.hyphens, h.last]
  rw [text, step, comment?, h.unbroken rest]
  simp only [bind, Option.bind_some, checked?, chars, if_true, open', String.ofList_toList]
  rfl

/-- The target of a processing instruction ends where its data starts. -/
theorem span_target {target : String} {data : Option String} (h : InstructionFits target data)
    (notXml : target ≠ "xml") (rest : List Char) :
    (target.toList ++ (writeData data ++ ('?' :: '>' :: rest))).takeWhile isNameChar =
      target.toList ∧
    (target.toList ++ (writeData data ++ ('?' :: '>' :: rest))).dropWhile isNameChar =
      writeData data ++ ('?' :: '>' :: rest) ∧
    ['x', 'm', 'l', ' '].isPrefixOf (target.toList ++ (writeData data ++ ('?' :: '>' :: rest))) =
      false := by
  have head : ∃ c cs, writeData data ++ ('?' :: '>' :: rest) = c :: cs ∧ isNameChar c = false := by
    cases data with
    | none => exact ⟨_, _, rfl, by decide⟩
    | some s =>
      rw [writeData, if_neg (h.data s rfl).1]
      exact ⟨_, _, rfl, by decide⟩
  obtain ⟨c, cs, after, hc⟩ := head
  obtain ⟨taken, dropped⟩ := span_of_stop h.chars (after ▸ stop_at hc cs)
  refine ⟨taken, dropped, Bool.eq_false_iff.2 fun declaration => notXml ?_⟩
  obtain ⟨tail, eq⟩ := List.isPrefixOf_iff_prefix.1 declaration
  rw [← eq] at taken
  exact String.toList_inj.1 taken.symm

/-- A processing instruction with the target `xml` would be taken for an XML declaration. -/
theorem next?_instruction {target : String} {data : Option String}
    (h : InstructionFits target data) (notXml : target ≠ "xml") (rest : List Char) :
    next? (['<', '?'] ++ target.toList ++ writeData data ++ ['?', '>'] ++ rest) =
      some (instruction target data, rest) := by
  have text : ['<', '?'] ++ target.toList ++ writeData data ++ ['?', '>'] ++ rest =
      '<' :: '?' :: (target.toList ++ (writeData data ++ ('?' :: '>' :: rest))) := by simp
  have step (cs : List Char) : next? ('<' :: '?' :: cs) = instruction? cs := rfl
  obtain ⟨taken, dropped, declaration⟩ := span_target h notXml rest
  have skipped : (writeData data ++ ('?' :: '>' :: rest)).dropWhile isSpace =
      (data.getD "").toList ++ (['?', '>'] ++ rest) := by
    cases data with
    | none => rfl
    | some s =>
      obtain ⟨ne, -, first, -⟩ := h.data s rfl
      rw [writeData, if_neg ne, List.cons_append, List.dropWhile_cons_of_pos (by decide)]
      cases eq : s.toList with
      | nil => exact absurd (String.toList_eq_nil_iff.1 eq) ne
      | cons c cs =>
        have notSpace : isSpace c = false := first c (by rw [eq]; rfl)
        rw [List.cons_append, List.dropWhile_cons_of_neg (by simp [notSpace])]
        simp [eq]
  have split : splitAt? ['?', '>'] ((data.getD "").toList ++ (['?', '>'] ++ rest)) =
      some ((data.getD "").toList, rest) := by
    cases data with
    | none => rfl
    | some s => exact (h.data s rfl).2.2.2 rest
  have chars : (data.getD "").toList.all isChar = true := by
    cases data with
    | none => rfl
    | some s => exact List.all_eq_true.2 (h.data s rfl).2.1
  have known : (if (data.getD "").toList.isEmpty then none else some (data.getD "")) = data := by
    cases data with
    | none => rfl
    | some s => simpa using (h.data s rfl).1
  rw [text, step, instruction?]
  simp only [taken, dropped, declaration, h.start, skipped, split, bind, Option.bind_some, checked?,
    chars, if_true, Bool.not_true, Bool.or_self, Bool.false_eq_true, if_false, String.ofList_toList,
    known]

/-- What occurs in a text consists of characters of the text. -/
theorem mem_of_occursIn {part cs : List Char} (h : occursIn part cs = true) {c : Char}
    (hc : c ∈ part) : c ∈ cs := by
  induction cs with
  | nil =>
    rw [occursIn, List.isEmpty_iff] at h
    rwa [h] at hc
  | cons b cs ih =>
    rw [occursIn, Bool.or_eq_true, List.isPrefixOf_iff_prefix] at h
    rcases h with here | later
    · exact here.subset hc
    · exact List.mem_cons_of_mem _ (ih later)

theorem next?_text {content : List Char} (h : ∀ c ∈ content, isChar c = true) (ne : content ≠ [])
    (stop : ∀ c ∈ rest.head?, c = '<') :
    next? (Escape.text content ++ rest) = some (text (Escape.text content), rest) := by
  have inside : ∀ c ∈ Escape.text content, (c != '<') = true :=
    fun c hc => by simpa using (ne_of_mem_text hc).1
  obtain ⟨taken, dropped⟩ := span_of_stop inside fun c hc => by simpa using stop c hc
  have chars : (Escape.text content).all isChar = true :=
    List.all_eq_true.2 fun c hc => isChar_text h hc
  have closed : occursIn [']', ']', '>'] (Escape.text content) = false := by
    refine Bool.eq_false_iff.2 fun occurs => ?_
    exact (ne_of_mem_text (mem_of_occursIn occurs (by decide : '>' ∈ [']', ']', '>']))).2 rfl
  have step : next? (Escape.text content ++ rest) = text? (Escape.text content ++ rest) := by
    cases eq : Escape.text content with
    | nil => exact absurd (text_eq_nil_iff.1 eq) ne
    | cons b bs =>
      rw [eq] at inside
      have hb : b ≠ '<' := by simpa using inside b List.mem_cons_self
      rw [List.cons_append]
      unfold next?
      split
      · next eq => exact absurd (List.cons.inj eq).1 hb
      · next eq => exact absurd (List.cons.inj eq).1 hb
      · next eq => exact absurd (List.cons.inj eq).1 hb
      · next eq => exact absurd (List.cons.inj eq).1 hb
      · next eq => exact absurd (List.cons.inj eq).1 hb
      · next eq => exact absurd (List.cons.inj eq).1 hb
      · rfl
  rw [step, text?]
  simp only [taken, dropped, chars, closed, Bool.not_false, Bool.and_self, if_true]

end Token

end SamlSeal.Xml
