import Mathlib.Data.List.Forall2
import Mathlib.Data.List.TakeDrop
import Mathlib.Data.List.TakeWhile
import SamlSeal.Xml.Reading

/-!
# How markup is read

For every function of the reader, what it means that it returns something.  The rest of the theory
reasons with this and does not open the functions.

* `IsWordOf`: a word that a name was read from,
* `AttributesRead`: the attributes of a start tag, one after the other,
* `Token.Next`, `Token.start?_cases` and the like: which reader a token comes from, and what the
  reader asks for.  Every token is read somewhere in the text (`Token.next?_of_mem_atMost?`),
* `Markup.Partial.Takes`: what one token adds to what was read,
* `Markup.Resolved`: what resolving names makes of markup, node by node.

What every kind of token satisfies holds of all nodes (`Markup.all_read?`).
-/

namespace SamlSeal.Xml

/-! ### Lists -/

/-- Where a test stops between two texts. -/
theorem span_of_stop {p : Char → Bool} {as rest : List Char} (all : ∀ c ∈ as, p c = true)
    (stop : ∀ c ∈ rest.head?, p c = false) :
    (as ++ rest).takeWhile p = as ∧ (as ++ rest).dropWhile p = rest := by
  rw [List.takeWhile_append_of_pos all, List.dropWhile_append_of_pos all]
  cases rest with
  | nil => simp
  | cons c rest =>
    have no : ¬ p c = true := by simp [stop c rfl]
    rw [List.takeWhile_cons_of_neg no, List.dropWhile_cons_of_neg no, List.append_nil]
    exact ⟨rfl, rfl⟩

/-- What a partial function makes of a list, place by place. -/
theorem forall₂_of_mapM {α β : Type} {f : α → Option β} {as : List α} {bs : List β}
    (h : as.mapM f = some bs) : List.Forall₂ (fun a b => f a = some b) as bs := by
  induction as generalizing bs with
  | nil =>
    obtain rfl := Option.some.inj h
    exact .nil
  | cons a as ih =>
    rw [List.mapM_cons] at h
    obtain ⟨b, hb, h⟩ := Option.bind_eq_some_iff.1 h
    obtain ⟨bs', hbs, h⟩ := Option.bind_eq_some_iff.1 h
    obtain rfl := Option.some.inj h
    exact .cons hb (ih hbs)

theorem exists_of_forall₂ {α β : Type} {R : α → β → Prop} {as : List α} {bs : List β}
    (h : List.Forall₂ R as bs) {b : β} (hb : b ∈ bs) : ∃ a ∈ as, R a b := by
  induction h with
  | nil => cases hb
  | @cons a b' as bs hr _ ih =>
    rcases List.mem_cons.1 hb with rfl | hb
    · exact ⟨a, List.mem_cons_self, hr⟩
    · obtain ⟨a', ha', hr'⟩ := ih hb
      exact ⟨a', List.mem_cons_of_mem _ ha', hr'⟩

/-! ### Names -/

/-- A name without a colon. -/
def IsNCName (s : String) : Prop :=
  WrittenName.startsName s.toList = true ∧ ∀ c ∈ s.toList, isNameChar c = true ∧ c ≠ ':'

theorem isNCName_iff {s : String} : IsNCName s ↔ (WrittenName.startsName s.toList &&
    s.toList.all fun c => isNameChar c && c != ':') = true := by
  simp [IsNCName]

instance (s : String) : Decidable (IsNCName s) := decidable_of_decidable_of_iff isNCName_iff.symm

/-- A prefix that can be bound to a namespace, or the empty one. -/
def IsPfx (p : String) : Prop := p ≠ "xml" ∧ (p = "" ∨ IsNCName p)

theorem IsNCName.ne_empty {s : String} (h : IsNCName s) : s ≠ "" := by
  rintro rfl
  cases h.1

theorem IsNCName.colon_not_mem {s : String} (h : IsNCName s) : ':' ∉ s.toList :=
  fun mem => (h.2 ':' mem).2 rfl

theorem isPfx_empty : IsPfx "" := ⟨by decide, .inl rfl⟩

theorem IsPfx.isNameChar {p : String} (h : IsPfx p) {c : Char} (hc : c ∈ p.toList) :
    isNameChar c = true := by
  rcases h.2 with rfl | h
  · cases hc
  · exact (h.2 c hc).1

theorem IsPfx.colon_not_mem {p : String} (h : IsPfx p) : ':' ∉ p.toList := by
  rcases h.2 with rfl | h
  · simp
  · exact h.colon_not_mem

/-- Both parts of a name are names without a colon, but the prefix may be empty. -/
structure WrittenName.Sound (n : WrittenName) : Prop where
  pfx : n.pfx = "" ∨ IsNCName n.pfx
  localName : IsNCName n.localName

theorem WrittenName.ofWord?_sound {word : List Char} {n : WrittenName}
    (chars : ∀ c ∈ word, isNameChar c = true) (h : ofWord? word = some n) :
    n.Sound ∧ (writtenPfx? (String.ofList word)).getD "" = n.pfx := by
  have front : ∀ c ∈ word.takeWhile (· != ':'), isNameChar c = true ∧ c ≠ ':' := by
    intro c hc
    exact ⟨chars c ((List.takeWhile_sublist _).subset hc), by simpa using List.mem_takeWhile_imp hc⟩
  rw [ofWord?] at h
  rw [writtenPfx?, String.toList_ofList]
  rw [List.span_eq_takeWhile_dropWhile] at h ⊢
  cases rest : word.dropWhile (· != ':') with
  | nil =>
    -- no colon: the whole word is the local part
    simp only [rest, Option.ite_none_right_eq_some, Option.some.injEq] at h ⊢
    obtain ⟨starts, rfl⟩ := h
    exact ⟨⟨.inl rfl, by rwa [String.toList_ofList], by rwa [String.toList_ofList]⟩, rfl⟩
  | cons colon name =>
    simp only [rest, Option.ite_none_right_eq_some, Bool.and_eq_true, Bool.or_eq_true,
      List.isEmpty_iff, Bool.not_eq_true', List.contains_eq_mem, decide_eq_false_iff_not,
      Option.some.injEq] at h ⊢
    obtain ⟨⟨⟨starts, startsLocal⟩, single⟩, rfl⟩ := h
    have back : ∀ c ∈ name, isNameChar c = true ∧ c ≠ ':' := by
      intro c hc
      have mem : c ∈ word.dropWhile (· != ':') := by rw [rest]; exact List.mem_cons_of_mem _ hc
      exact ⟨chars c ((List.dropWhile_sublist _).subset mem), fun eq => single (eq ▸ hc)⟩
    refine ⟨⟨?_, by rwa [String.toList_ofList], by rwa [String.toList_ofList]⟩, ?_⟩
    · rcases starts with empty | starts
      · exact .inl (by rw [empty])
      · exact .inr ⟨by rwa [String.toList_ofList], by rwa [String.toList_ofList]⟩
    · rfl

/-- A word is one that a name was read from. -/
def IsWordOf (word : List Char) (name : WrittenName) : Prop :=
  WrittenName.ofWord? word = some name ∧ ∀ c ∈ word, isNameChar c = true

namespace IsWordOf

variable {word : List Char} {name : WrittenName}

theorem ne_nil (h : IsWordOf word name) : word ≠ [] := by
  rintro rfl
  cases h.1

theorem sound (h : IsWordOf word name) : name.Sound := (WrittenName.ofWord?_sound h.2 h.1).1

theorem writtenPfx? (h : IsWordOf word name) :
    (writtenPfx? (String.ofList word)).getD "" = name.pfx :=
  (WrittenName.ofWord?_sound h.2 h.1).2

end IsWordOf

/-- A name is read from the name characters at the start of a text. -/
theorem WrittenName.read?_cases {cs rest : List Char} {n : WrittenName}
    (h : read? cs = some (n, rest)) :
    IsWordOf (cs.takeWhile isNameChar) n ∧ rest = cs.dropWhile isNameChar := by
  obtain ⟨m, word, eq⟩ := Option.map_eq_some_iff.1 h
  obtain ⟨rfl, rfl⟩ := Prod.mk.inj eq
  exact ⟨⟨word, fun c hc => List.mem_takeWhile_imp hc⟩, rfl⟩

/-! ### Attributes -/

/-- A name, an equals sign and a quoted value are read as they stand. -/
theorem quoted?_cases {cs raw rest : List Char} {n : WrittenName}
    (h : quoted? cs = some (n, raw, rest)) :
    IsWordOf (cs.takeWhile isNameChar) n ∧ ∃ after quote inside,
      (cs.dropWhile isNameChar).dropWhile isSpace = '=' :: after ∧
      after.dropWhile isSpace = quote :: inside ∧ (quote = '"' ∨ quote = '\'') ∧
      inside.takeWhile (fun c => c != quote && c != '<') = raw ∧
      inside.dropWhile (fun c => c != quote && c != '<') = quote :: rest ∧
      raw.all isChar = true := by
  obtain ⟨⟨name, cs'⟩, hname, h⟩ := Option.bind_eq_some_iff.1 h
  obtain ⟨word, rfl⟩ := WrittenName.read?_cases hname
  simp only at h
  split at h
  · next after equals =>
    split at h
    · next quote inside opened =>
      split at h
      · next isQuote =>
        split at h
        · next c tail closed =>
          obtain ⟨⟨rfl, chars⟩, h⟩ := Option.ite_none_right_eq_some.1 h
          obtain ⟨rfl, rfl, rfl⟩ : name = n ∧ _ := by simpa using h
          exact ⟨word, after, c, inside, equals, opened, isQuote, rfl, closed, chars⟩
        · cases h
      · cases h
    · cases h
  · cases h

theorem quoted?_suffix {cs raw rest : List Char} {n : WrittenName}
    (h : quoted? cs = some (n, raw, rest)) : rest <:+ cs := by
  obtain ⟨-, after, quote, inside, equals, opened, -, -, closed, -⟩ := quoted?_cases h
  have first : '=' :: after <:+ cs :=
    equals ▸ (List.dropWhile_suffix _).trans (List.dropWhile_suffix _)
  have second : quote :: inside <:+ after := opened ▸ List.dropWhile_suffix _
  have third : quote :: rest <:+ inside := closed ▸ List.dropWhile_suffix _
  have value : rest <:+ inside := (List.suffix_cons _ _).trans third
  have after : rest <:+ after := (value.trans (List.suffix_cons _ _)).trans second
  exact (after.trans (List.suffix_cons _ _)).trans first

/-- The attributes that are read from the end of the name of a start tag on, whether the tag closes
the element at once, and what comes after the tag. -/
inductive AttributesRead : List Char → List (WrittenName × String) → Bool → List Char → Prop
  | stop {cs rest : List Char} (ends : cs.dropWhile isSpace = '>' :: rest) :
    AttributesRead cs [] false rest
  | close {cs rest : List Char} (ends : cs.dropWhile isSpace = '/' :: '>' :: rest) :
    AttributesRead cs [] true rest
  | cons {cs raw value after rest : List Char} {name : WrittenName}
    {as : List (WrittenName × String)} {closed : Bool} (space : cs.head?.any isSpace = true)
    (quoted : quoted? (cs.dropWhile isSpace) = some (name, raw, after))
    (stands : attributeValue raw = some value) (more : AttributesRead after as closed rest) :
    AttributesRead cs ((name, String.ofList value) :: as) closed rest

theorem attributesRead_of_attributes? {n : Nat} {cs rest : List Char} {closed : Bool}
    {as : List (WrittenName × String)} (h : attributes? n cs = some (as, closed, rest)) :
    AttributesRead cs as closed rest := by
  induction n generalizing cs as closed rest with
  | zero => cases h
  | succ n ih =>
    rw [attributes?] at h
    split at h
    · next tail ends =>
      cases h
      exact .stop ends
    · next tail ends =>
      cases h
      exact .close ends
    · obtain ⟨space, h⟩ := Option.ite_none_right_eq_some.1 h
      obtain ⟨⟨name, raw, after⟩, quoted, h⟩ := Option.bind_eq_some_iff.1 h
      obtain ⟨value, stands, h⟩ := Option.bind_eq_some_iff.1 h
      obtain ⟨⟨as', closed', rest'⟩, more, h⟩ := Option.bind_eq_some_iff.1 h
      cases h
      exact .cons space quoted stands (ih more)

theorem AttributesRead.suffix {cs rest : List Char} {closed : Bool}
    {as : List (WrittenName × String)} (h : AttributesRead cs as closed rest) : rest <:+ cs := by
  induction h with
  | stop ends => exact (List.suffix_cons _ _).trans (ends ▸ List.dropWhile_suffix _)
  | close ends =>
    exact ((List.suffix_cons _ _).trans (List.suffix_cons _ _)).trans
      (ends ▸ List.dropWhile_suffix _)
  | cons _ quoted _ _ ih => exact (ih.trans (quoted?_suffix quoted)).trans (List.dropWhile_suffix _)

/-! ### Tokens -/

theorem splitAt?_eq_append {stop cs raw rest : List Char} (h : splitAt? stop cs = some (raw, rest)) :
    cs = raw ++ (stop ++ rest) := by
  induction cs generalizing raw with
  | nil =>
    obtain ⟨empty, eq⟩ := Option.ite_none_right_eq_some.1 h
    obtain ⟨rfl, rfl⟩ := Prod.mk.inj (Option.some.inj eq)
    simp [List.isEmpty_iff.1 empty]
  | cons c cs ih =>
    rw [splitAt?] at h
    split at h
    · next here =>
      obtain ⟨rfl, rfl⟩ := Prod.mk.inj (Option.some.inj h)
      obtain ⟨tail, eq⟩ := List.isPrefixOf_iff_prefix.1 here
      rw [← eq, List.drop_left, List.nil_append]
    · obtain ⟨⟨raw', rest'⟩, hr, eq⟩ := Option.map_eq_some_iff.1 h
      obtain ⟨rfl, rfl⟩ := Prod.mk.inj eq
      rw [ih hr, List.cons_append]

theorem splitAt?_suffix {stop cs raw rest : List Char} (h : splitAt? stop cs = some (raw, rest)) :
    rest <:+ cs :=
  ⟨raw ++ stop, by rw [splitAt?_eq_append h, List.append_assoc]⟩

namespace Token

theorem checked?_eq_some_iff {raw : List Char} {s : String} :
    checked? raw = some s ↔ raw.all isChar = true ∧ String.ofList raw = s := by
  rw [checked?, Option.ite_none_right_eq_some, Option.some.injEq]

section Cases

variable {cs rest : List Char} {t : Token}

theorem comment?_cases (h : comment? cs = some (t, rest)) :
    ∃ raw, t = comment (String.ofList raw) ∧
      splitAt? ['-', '-', '>'] cs = some (raw, rest) ∧ raw.all isChar = true ∧
      occursIn ['-', '-'] raw = false ∧ raw.getLast? ≠ some '-' := by
  obtain ⟨⟨raw, rest'⟩, cut, h⟩ := Option.bind_eq_some_iff.1 h
  obtain ⟨content, checked, h⟩ := Option.bind_eq_some_iff.1 h
  obtain ⟨chars, rfl⟩ := checked?_eq_some_iff.1 checked
  obtain ⟨hyphens, h⟩ := Option.ite_none_left_eq_some.1 h
  simp only [Bool.or_eq_true, beq_iff_eq, not_or, Bool.not_eq_true] at hyphens
  cases h
  exact ⟨raw, rfl, cut, chars, hyphens⟩

theorem literal?_cases (h : literal? cs = some (t, rest)) :
    ∃ raw, t = literal raw ∧ splitAt? [']', ']', '>'] cs = some (raw, rest) ∧
      raw.all isChar = true := by
  obtain ⟨⟨raw, rest'⟩, cut, h⟩ := Option.bind_eq_some_iff.1 h
  obtain ⟨content, checked, h⟩ := Option.bind_eq_some_iff.1 h
  cases h
  exact ⟨raw, rfl, cut, (checked?_eq_some_iff.1 checked).1⟩

/-- The data of a processing instruction start where the space after the target ends. -/
theorem instruction?_cases (h : instruction? cs = some (t, rest)) :
    ∃ raw, t = instruction (String.ofList (cs.takeWhile isNameChar))
        (if raw.isEmpty then none else some (String.ofList raw)) ∧
      ['x', 'm', 'l', ' '].isPrefixOf cs = false ∧
      WrittenName.startsName (cs.takeWhile isNameChar) = true ∧
      splitAt? ['?', '>'] ((cs.dropWhile isNameChar).dropWhile isSpace) = some (raw, rest) ∧
      raw.all isChar = true := by
  obtain ⟨no, h⟩ := Option.ite_none_left_eq_some.1 h
  obtain ⟨⟨raw, rest'⟩, cut, h⟩ := Option.bind_eq_some_iff.1 h
  obtain ⟨data, checked, h⟩ := Option.bind_eq_some_iff.1 h
  obtain ⟨chars, rfl⟩ := checked?_eq_some_iff.1 checked
  simp only [Bool.or_eq_true, Bool.not_eq_true', not_or, Bool.not_eq_true,
    Bool.not_eq_false] at no
  cases h
  exact ⟨raw, rfl, no.1, no.2, cut, chars⟩

theorem stop?_cases (h : stop? cs = some (t, rest)) :
    ∃ name, t = stop name ∧ IsWordOf (cs.takeWhile isNameChar) name ∧
      (cs.dropWhile isNameChar).dropWhile isSpace = '>' :: rest := by
  obtain ⟨⟨name, tail⟩, read, h⟩ := Option.bind_eq_some_iff.1 h
  obtain ⟨word, rfl⟩ := WrittenName.read?_cases read
  simp only at h
  split at h
  · next rest' ends =>
    cases h
    exact ⟨name, rfl, word, ends⟩
  · cases h

/-- A start tag keeps the text from its `<` on. -/
theorem start?_cases (h : start? cs = some (t, rest)) :
    ∃ name as closed, t = start ('<' :: cs) ⟨name, as⟩ closed ∧
      IsWordOf (cs.takeWhile isNameChar) name ∧
      AttributesRead (cs.dropWhile isNameChar) as closed rest := by
  obtain ⟨⟨name, tail⟩, read, h⟩ := Option.bind_eq_some_iff.1 h
  obtain ⟨⟨as, closed, rest'⟩, attributes, h⟩ := Option.bind_eq_some_iff.1 h
  obtain ⟨rfl, rfl⟩ := Prod.mk.inj (Option.some.inj h)
  obtain ⟨word, rfl⟩ := WrittenName.read?_cases read
  exact ⟨name, as, closed, rfl, word, attributesRead_of_attributes? attributes⟩

theorem text?_cases (h : text? cs = some (t, rest)) :
    t = text (cs.takeWhile (· != '<')) ∧ rest = cs.dropWhile (· != '<') ∧
      (cs.takeWhile (· != '<')).all isChar = true ∧
      occursIn [']', ']', '>'] (cs.takeWhile (· != '<')) = false := by
  obtain ⟨chars, h⟩ := Option.ite_none_right_eq_some.1 h
  simp only [Bool.and_eq_true, Bool.not_eq_true'] at chars
  cases h
  exact ⟨rfl, rfl, chars⟩

end Cases

/-- Which reader a token comes from, by the characters that it starts with. -/
inductive Next : List Char → Token → List Char → Prop
  | comment {cs rest : List Char} {t : Token} (h : comment? cs = some (t, rest)) :
    Next ('<' :: '!' :: '-' :: '-' :: cs) t rest
  | literal {cs rest : List Char} {t : Token} (h : literal? cs = some (t, rest)) :
    Next ('<' :: '!' :: '[' :: 'C' :: 'D' :: 'A' :: 'T' :: 'A' :: '[' :: cs) t rest
  | instruction {cs rest : List Char} {t : Token} (h : instruction? cs = some (t, rest)) :
    Next ('<' :: '?' :: cs) t rest
  | stop {cs rest : List Char} {t : Token} (h : stop? cs = some (t, rest)) :
    Next ('<' :: '/' :: cs) t rest
  | start {cs rest : List Char} {t : Token} (h : start? cs = some (t, rest)) :
    Next ('<' :: cs) t rest
  | text {cs rest : List Char} {t : Token} (h : text? cs = some (t, rest)) : Next cs t rest

theorem next_of_next? {cs rest : List Char} {t : Token} (h : next? cs = some (t, rest)) :
    Next cs t rest := by
  unfold next? at h
  split at h
  · exact .comment h
  · exact .literal h
  · cases h
  · exact .instruction h
  · exact .stop h
  · exact .start h
  · exact .text h

/-- What comes after a token is the rest of the text. -/
theorem next?_suffix {cs rest : List Char} {t : Token} (h : next? cs = some (t, rest)) :
    rest <:+ cs := by
  cases next_of_next? h with
  | comment h =>
    obtain ⟨raw, -, cut, -⟩ := comment?_cases h
    exact (splitAt?_suffix cut).trans ⟨['<', '!', '-', '-'], rfl⟩
  | literal h =>
    obtain ⟨raw, -, cut, -⟩ := literal?_cases h
    exact (splitAt?_suffix cut).trans ⟨"<![CDATA[".toList, rfl⟩
  | instruction h =>
    obtain ⟨raw, -, -, -, cut, -⟩ := instruction?_cases h
    have data := (splitAt?_suffix cut).trans (List.dropWhile_suffix _)
    exact (data.trans (List.dropWhile_suffix _)).trans ⟨['<', '?'], rfl⟩
  | stop h =>
    obtain ⟨name, -, -, ends⟩ := stop?_cases h
    have last := (List.suffix_cons '>' rest).trans (ends ▸ List.dropWhile_suffix isSpace)
    exact (last.trans (List.dropWhile_suffix _)).trans ⟨['<', '/'], rfl⟩
  | start h =>
    obtain ⟨name, as, closed, -, -, attributes⟩ := start?_cases h
    exact (attributes.suffix.trans (List.dropWhile_suffix _)).trans (List.suffix_cons _ _)
  | text h =>
    obtain ⟨-, rfl, -⟩ := text?_cases h
    exact List.dropWhile_suffix _

/-- Every token is read somewhere in the text. -/
theorem next?_of_mem_atMost? {n : Nat} {cs : List Char} {ts : List Token}
    (h : atMost? n cs = some ts) {t : Token} (ht : t ∈ ts) :
    ∃ cs' rest, cs' <:+ cs ∧ next? cs' = some (t, rest) := by
  induction n generalizing cs ts with
  | zero =>
    cases cs with
    | nil =>
      cases h
      cases ht
    | cons c cs => cases h
  | succ n ih =>
    cases cs with
    | nil =>
      cases h
      cases ht
    | cons c cs =>
      obtain ⟨⟨first, rest⟩, here, h⟩ := Option.bind_eq_some_iff.1 h
      obtain ⟨ts', later, h⟩ := Option.bind_eq_some_iff.1 h
      cases h
      rcases List.mem_cons.1 ht with rfl | ht
      · exact ⟨c :: cs, rest, List.suffix_rfl, here⟩
      · obtain ⟨cs', rest', suffix, read⟩ := ih later ht
        exact ⟨cs', rest', suffix.trans (next?_suffix here), read⟩

/-! ### What every kind of token satisfies -/

/-- The nodes that a token makes have a property. -/
def Makes (P : Item → Prop) : Token → Prop
  | start source tag _ => P (.element source tag)
  | stop _ => True
  | text raw => ∀ s, textValue raw = some s → P (.text (String.ofList s))
  | literal raw => P (.text (String.ofList (sectionValue raw)))
  | comment content => P (.comment content)
  | instruction target data => P (.instruction target data)

theorem Makes.imp {P Q : Item → Prop} (next : ∀ item, P item → Q item) {t : Token}
    (h : t.Makes P) : t.Makes Q := by
  cases t with
  | start source tag closed => exact next _ h
  | stop name => trivial
  | text raw => exact fun s hs => next _ (h s hs)
  | literal raw => exact next _ h
  | comment content => exact next _ h
  | instruction target data => exact next _ h

/-- A property that holds of what is made of each kind of token. -/
structure Maker (P : Item → Prop) : Prop where
  start : ∀ {cs rest t}, start? cs = some (t, rest) → t.Makes P
  comment : ∀ {cs rest t}, comment? cs = some (t, rest) → t.Makes P
  instruction : ∀ {cs rest t}, instruction? cs = some (t, rest) → t.Makes P
  text : ∀ {raw}, raw.all isChar = true → (text raw).Makes P
  literal : ∀ {raw}, raw.all isChar = true → (literal raw).Makes P
  /-- Texts that touch are one text. -/
  join : ∀ {s t}, P (.text s) → P (.text t) → P (.text (s ++ t))

/-- What is said of elements only holds of everything that other tokens make. -/
theorem Maker.of_start {P : Item → Prop}
    (start : ∀ {cs rest t}, start? cs = some (t, rest) → t.Makes P)
    (others : ∀ item, Markup.isElement item = false → P item) : Maker P where
  start := start
  comment h := by
    obtain ⟨raw, rfl, -⟩ := comment?_cases h
    exact others _ rfl
  instruction h := by
    obtain ⟨raw, rfl, -⟩ := instruction?_cases h
    exact others _ rfl
  text _ _ _ := others _ rfl
  literal _ := others _ rfl
  join _ _ := others _ rfl

theorem Maker.next? {P : Item → Prop} (maker : Maker P) {cs rest : List Char} {t : Token}
    (h : next? cs = some (t, rest)) : t.Makes P := by
  cases next_of_next? h with
  | comment h => exact maker.comment h
  | literal h =>
    obtain ⟨raw, rfl, -, chars⟩ := literal?_cases h
    exact maker.literal chars
  | instruction h => exact maker.instruction h
  | stop h =>
    obtain ⟨name, rfl, -⟩ := stop?_cases h
    trivial
  | start h => exact maker.start h
  | text h =>
    obtain ⟨rfl, -, chars, -⟩ := text?_cases h
    exact maker.text chars

end Token

/-! ### Nesting -/

namespace Markup

/-- What one token adds in front of what was read. -/
inductive Partial.Takes : Token → Partial → Partial → Prop
  | stop {name : WrittenName} {p : Partial} : Takes (.stop name) p ⟨.nil, (name, p.here) :: p.around⟩
  | closed {source : List Char} {tag : Tag} {p : Partial} :
    Takes (.start source tag true) p ⟨.node (.element source tag) .nil p.here, p.around⟩
  | opened {source : List Char} {tag : Tag} {here next : Markup}
    {around : List (WrittenName × Markup)} :
    Takes (.start source tag false) ⟨here, (tag.name, next) :: around⟩
      ⟨.node (.element source tag) here next, around⟩
  /-- Outside the document element white space leaves no node. -/
  | space {raw : List Char} {here : Markup} (spaces : raw.all isSpace = true) :
    Takes (.text raw) ⟨here, []⟩ ⟨here, []⟩
  | text {raw s : List Char} {p : Partial} (inside : p.around ≠ []) (value : textValue raw = some s) :
    Takes (.text raw) p ⟨consText s p.here, p.around⟩
  | literal {raw : List Char} {p : Partial} (inside : p.around ≠ []) :
    Takes (.literal raw) p ⟨consText (sectionValue raw) p.here, p.around⟩
  | comment {content : String} {p : Partial} :
    Takes (.comment content) p ⟨.node (.comment content) .nil p.here, p.around⟩
  | instruction {target : String} {data : Option String} {p : Partial} :
    Takes (.instruction target data) p ⟨.node (.instruction target data) .nil p.here, p.around⟩

theorem Partial.takes_of_cons? {t : Token} {p p' : Partial} (h : cons? t p = some p') :
    Takes t p p' := by
  obtain ⟨here, around⟩ := p
  unfold cons? at h
  split at h
  · cases h
    exact .stop
  · cases h
    exact .closed
  · split at h
    · next outer =>
      obtain rfl := outer
      obtain ⟨rfl, h⟩ := Option.ite_none_right_eq_some.1 h
      cases h
      exact .opened
    · cases h
  · split at h
    · next outside =>
      obtain ⟨spaces, h⟩ := Option.ite_none_right_eq_some.1 h
      obtain rfl := List.isEmpty_iff.1 outside
      cases h
      exact .space spaces
    · next inside =>
      obtain ⟨s, value, rfl⟩ := Option.map_eq_some_iff.1 h
      exact .text (mt List.isEmpty_iff.2 inside) value
  · obtain ⟨inside, h⟩ := Option.ite_none_left_eq_some.1 h
    cases h
    exact .literal (mt List.isEmpty_iff.2 inside)
  · cases h
    exact .comment
  · cases h
    exact .instruction

/-- What holds at the start and is kept by every token holds when all tokens are read. -/
theorem Partial.ofTokens?_induction {Q : Partial → Prop} {ts : List Token} {p : Partial}
    (start : Q ⟨.nil, []⟩) (step : ∀ t ∈ ts, ∀ {p p'}, Q p → Takes t p p' → Q p')
    (h : ofTokens? ts = some p) : Q p := by
  induction ts generalizing p with
  | nil =>
    obtain rfl := Option.some.inj h
    exact start
  | cons t ts ih =>
    obtain ⟨q, hq, h⟩ := Option.bind_eq_some_iff.1 h
    exact step t List.mem_cons_self (ih (fun t ht => step t (List.mem_cons_of_mem _ ht)) hq)
      (takes_of_cons? h)

theorem skipSpaces?_suffix {cs rest : List Char} (h : skipSpaces? cs = some rest) :
    rest <:+ cs := by
  unfold skipSpaces? at h
  split at h
  · rw [← Option.some.inj h]
    exact List.dropWhile_suffix _
  · obtain ⟨-, h⟩ := Option.ite_none_right_eq_some.1 h
    exact Option.some.inj h ▸ List.suffix_rfl

theorem skipPart?_suffix {word cs rest : List Char} (h : skipPart? word cs = some rest) :
    rest <:+ cs := by
  obtain ⟨-, h⟩ := Option.ite_none_right_eq_some.1 h
  obtain ⟨⟨name, raw, after⟩, quoted, h⟩ := Option.bind_eq_some_iff.1 h
  exact (skipSpaces?_suffix h).trans (quoted?_suffix quoted)

/-- What is left of a text after a part that need not be there. -/
theorem exists_suffix_of_optional {c : Prop} [Decidable c] {x : Option (List Char)}
    {k : List Char → Option (List Char)} {cs rest : List Char}
    (skipped : ∀ r, x = some r → r <:+ cs)
    (h : (if c then x.bind k else (some cs).bind k) = some rest) :
    ∃ r, r <:+ cs ∧ k r = some rest := by
  split at h
  · obtain ⟨r, hr, h⟩ := Option.bind_eq_some_iff.1 h
    exact ⟨r, skipped r hr, h⟩
  · exact ⟨cs, List.suffix_rfl, h⟩

theorem skipDeclaration?_suffix {cs rest : List Char} (h : skipDeclaration? cs = some rest) :
    rest <:+ cs := by
  obtain ⟨cs₁, version, h⟩ := Option.bind_eq_some_iff.1 h
  have first : cs₁ <:+ cs := (skipPart?_suffix version).trans (List.dropWhile_suffix _)
  obtain ⟨cs₂, second, h⟩ := exists_suffix_of_optional (fun _ => skipPart?_suffix) h
  have afterQuoted : ∀ r, (quoted? cs₂).map (·.2.2) = some r → r <:+ cs₂ := by
    intro r hr
    obtain ⟨⟨name, raw, after⟩, quoted, rfl⟩ := Option.map_eq_some_iff.1 hr
    exact quoted?_suffix quoted
  obtain ⟨cs₃, third, h⟩ := exists_suffix_of_optional afterQuoted h
  dsimp only at h
  split at h
  · next rest' eq =>
    obtain rfl := Option.some.inj h
    have last : '?' :: '>' :: rest' <:+ cs₃ := eq ▸ List.dropWhile_suffix _
    have inner : rest' <:+ cs₃ := ((List.suffix_cons _ _).trans (List.suffix_cons _ _)).trans last
    exact ((inner.trans third).trans second).trans first
  · cases h

theorem skipMark_suffix (cs : List Char) : skipMark cs <:+ cs := by
  unfold skipMark
  split
  · split
    · exact List.suffix_cons _ _
    · exact List.suffix_rfl
  · exact List.suffix_rfl

/-- A document is read from some tokens, all of which can be read.  They are what is left of the
text after a byte order mark and an XML declaration. -/
theorem read?_cases {cs : List Char} {m : Markup} (h : read? cs = some m) :
    ∃ cs' ts, cs' <:+ cs ∧ Token.all? cs' = some ts ∧ Partial.ofTokens? ts = some ⟨m, []⟩ ∧
      m.roots.countP isElement = 1 := by
  have whole : ∀ cs' : List Char, cs' <:+ cs → (do
      let ts ← Token.all? cs'
      ofTokens? ts) = some m → ∃ cs' ts, cs' <:+ cs ∧ Token.all? cs' = some ts ∧
        Partial.ofTokens? ts = some ⟨m, []⟩ ∧ m.roots.countP isElement = 1 := by
    intro cs' suffix h
    obtain ⟨ts, hts, h⟩ := Option.bind_eq_some_iff.1 h
    unfold ofTokens? at h
    split at h
    · next f hp =>
      obtain ⟨single, h⟩ := Option.ite_none_right_eq_some.1 h
      obtain rfl := Option.some.inj h
      exact ⟨cs', ts, suffix, hts, hp, single⟩
    · cases h
  have mark := skipMark_suffix cs
  simp only [read?] at h
  split at h
  · obtain ⟨cs', skipped, h⟩ := Option.bind_eq_some_iff.1 h
    exact whole cs' (((skipDeclaration?_suffix skipped).trans (List.drop_suffix _ _)).trans mark) h
  · exact whole _ mark h

/-! ### All nodes -/

/-- All nodes of some markup have a property. -/
def All (P : Item → Prop) (m : Markup) : Prop := ∀ i ∈ Forest.labels m, P i

section All

variable {P : Item → Prop}

theorem all_nil : All P .nil := by
  intro i hi
  cases hi

theorem all_node {item : Item} {inner next : Markup} :
    All P (.node item inner next) ↔ P item ∧ All P inner ∧ All P next := by
  simp only [All, Forest.labels, List.mem_cons, List.mem_append, or_imp, forall_and, forall_eq]

theorem all_consText (join : ∀ {s t}, P (.text s) → P (.text t) → P (.text (s ++ t)))
    {content : List Char} (hc : P (.text (String.ofList content))) {m : Markup} (h : All P m) :
    All P (consText content m) := by
  unfold consText
  split
  · obtain ⟨text, inner, next⟩ := all_node.1 h
    exact all_node.2 ⟨join hc text, inner, next⟩
  · exact all_node.2 ⟨hc, all_nil, h⟩

theorem Partial.all_takes (join : ∀ {s t}, P (.text s) → P (.text t) → P (.text (s ++ t)))
    {t : Token} {p p' : Partial} (ht : t.Makes P) (here : All P p.here)
    (around : ∀ x ∈ p.around, All P x.2) (h : Takes t p p') :
    All P p'.here ∧ ∀ x ∈ p'.around, All P x.2 := by
  cases h with
  | stop => exact ⟨all_nil, List.forall_mem_cons.2 ⟨here, around⟩⟩
  | closed => exact ⟨all_node.2 ⟨ht, all_nil, here⟩, around⟩
  | opened =>
    obtain ⟨next, later⟩ := List.forall_mem_cons.1 around
    exact ⟨all_node.2 ⟨ht, here, next⟩, later⟩
  | space => exact ⟨here, around⟩
  | text _ value => exact ⟨all_consText join (ht _ value) here, around⟩
  | literal => exact ⟨all_consText join ht here, around⟩
  | comment => exact ⟨all_node.2 ⟨ht, all_nil, here⟩, around⟩
  | instruction => exact ⟨all_node.2 ⟨ht, all_nil, here⟩, around⟩

/-- What holds of what is made of each token holds of all nodes. -/
theorem all_ofTokens? (join : ∀ {s t}, P (.text s) → P (.text t) → P (.text (s ++ t)))
    {ts : List Token} (makes : ∀ t ∈ ts, t.Makes P) {p : Partial}
    (h : Partial.ofTokens? ts = some p) : All P p.here := by
  refine (Partial.ofTokens?_induction
    (Q := fun p => All P p.here ∧ ∀ x ∈ p.around, All P x.2) ⟨all_nil, by simp⟩ ?_ h).1
  intro t ht p p' hq h
  exact Partial.all_takes join (makes t ht) hq.1 hq.2 h

/-- What holds of what is made of each kind of token holds of all nodes. -/
theorem all_read? (maker : Token.Maker P) {cs : List Char} {m : Markup}
    (h : read? cs = some m) : All P m := by
  obtain ⟨cs', ts, -, tokens, made, -⟩ := read?_cases h
  refine all_ofTokens? maker.join (fun t ht => ?_) made
  obtain ⟨_, _, -, read⟩ := Token.next?_of_mem_atMost? tokens ht
  exact maker.next? read

end All

end Markup

/-! ### Names in their namespaces -/

namespace Tag

/-- A declaration that is accepted declares the prefix after `xmlns:`, or the default namespace. -/
theorem declaration?_cases {name : WrittenName} {value : String} {d : Declaration}
    (h : declaration? name value = some (some d)) :
    value ≠ Namespace.xmlns ∧ value ≠ Namespace.xml ∧
      (name.localName ≠ "xml" ∧ d = ⟨name.localName, value⟩ ∨ d = ⟨"", value⟩) := by
  obtain ⟨notXmlns, h⟩ := Option.ite_none_left_eq_some.1 h
  split at h
  · split at h
    · obtain ⟨-, h⟩ := Option.ite_none_right_eq_some.1 h
      cases h
    · next notReserved =>
      obtain ⟨notXml, h⟩ := Option.ite_none_left_eq_some.1 h
      cases h
      exact ⟨notXmlns, notXml, .inl ⟨notReserved, rfl⟩⟩
  · obtain ⟨notXml, h⟩ := Option.ite_none_left_eq_some.1 h
    cases h
    exact ⟨notXmlns, notXml, .inr rfl⟩

/-- Every declaration of a start tag stands in it. -/
theorem mem_declarations? {as : List (WrittenName × String)} {own : Namespaces}
    (h : declarations? as = some own) {d : Declaration} (hd : d ∈ own) :
    ∃ a ∈ as, declaration? a.1 a.2 = some (some d) := by
  obtain ⟨made, hmade, h⟩ := Option.bind_eq_some_iff.1 h
  obtain ⟨-, h⟩ := Option.ite_none_right_eq_some.1 h
  cases h
  obtain ⟨found, hfound, rfl⟩ := List.mem_filterMap.1 hd
  obtain ⟨a, ha, declared⟩ := exists_of_forall₂ (forall₂_of_mapM hmade) hfound
  exact ⟨a, (List.mem_filter.1 ha).1, declared⟩

end Tag

/-- The attributes of a start tag, once their names are resolved.  No two of them have the same
namespace and local name. -/
theorem resolveAttributes?_cases {ns : Namespaces} {scope : Scope} {written : List String}
    {as : List (WrittenName × String)} {resolved : List Attribute}
    (h : resolveAttributes? ns scope written as = some resolved) :
    (∀ a ∈ resolved, ∃ x ∈ as, ∃ place, a.name.localName = x.1.localName ∧ a.value = x.2 ∧
      a.name.pfx = Xml.attributePfx scope place a.name.uri) ∧
    (resolved.map fun a => (a.name.uri, a.name.localName)).Nodup := by
  obtain ⟨uris, huris, h⟩ := Option.bind_eq_some_iff.1 h
  obtain ⟨distinct, h⟩ := Option.ite_none_right_eq_some.1 h
  obtain rfl := Option.some.inj h
  refine ⟨fun a ha => ?_, ?_⟩
  · obtain ⟨⟨x, uri, place⟩, hx, rfl⟩ := List.mem_map.1 ha
    exact ⟨x, (List.of_mem_zip hx).1, place, rfl, rfl, rfl⟩
  · have same := (forall₂_of_mapM huris).length_eq
    convert distinct using 1
    rw [List.map_map]
    refine List.ext_getElem ?_ fun i _ _ => by simp
    split <;> simp [*]

/-! ### Trees -/

/-- What a node that is no start tag becomes. -/
inductive Item.Leaf : Item → Kind → Prop
  | text {content : String} : Leaf (.text content) (.text content)
  | comment {content : String} : Leaf (.comment content) (.comment content)
  | instruction {target : String} {data : Option String} :
    Leaf (.instruction target data) (.instruction target data)

/-- What some markup becomes where the given namespaces and bindings are around it. -/
inductive Markup.Resolved : Namespaces → Scope → Markup → Forest Kind → Prop
  | nil {around : Namespaces} {outer : Scope} : Resolved around outer .nil .nil
  | leaf {around : Namespaces} {outer : Scope} {item : Item} {kind : Kind} {inner next : Markup}
    {next' : Forest Kind} (hk : item.Leaf kind) (hn : Resolved around outer next next') :
    Resolved around outer (.node item inner next) (.node kind .nil next')
  | element {around own : Namespaces} {outer : Scope} {source : List Char} {tag : Tag}
    {inner next : Markup} {inner' next' : Forest Kind} {uri : Option String} {written : StartTag}
    {attributes : List Attribute}
    (declared : Tag.declarations? tag.attributes = some own)
    (named : elementUri? (around.extend own) tag.name = some uri)
    (scanned : StartTag.scan source = some written)
    (resolved : resolveAttributes? (around.extend own) (around.extend own).toScope
      written.attributes (tag.attributes.filter fun a => !Tag.declares a.1) = some attributes)
    (hi : Resolved (around.extend own) (around.extend own).toScope inner inner')
    (hn : Resolved around outer next next') :
    Resolved around outer (.node (.element source tag) inner next)
      (.node (.element ⟨⟨writtenPfx? written.name, tag.name.localName, uri⟩, attributes,
        outer.changes (around.extend own).toScope⟩) inner' next')

namespace Markup

theorem resolve?_eq_some_iff {m : Markup} {around : Namespaces} {outer : Scope}
    {f : Forest Kind} : m.resolve? around outer = some f ↔ Resolved around outer m f := by
  constructor
  · intro h
    induction m generalizing around outer f with
    | nil =>
      cases h
      exact .nil
    | node item inner next ihInner ihNext =>
      obtain ⟨next', hn, h⟩ := Option.bind_eq_some_iff.1 h
      cases item with
      | text content =>
        cases h
        exact .leaf .text (ihNext hn)
      | comment content =>
        cases h
        exact .leaf .comment (ihNext hn)
      | instruction target data =>
        cases h
        exact .leaf .instruction (ihNext hn)
      | element source tag =>
        obtain ⟨own, declared, h⟩ := Option.bind_eq_some_iff.1 h
        obtain ⟨uri, named, h⟩ := Option.bind_eq_some_iff.1 h
        obtain ⟨written, scanned, h⟩ := Option.bind_eq_some_iff.1 h
        obtain ⟨attributes, resolved, h⟩ := Option.bind_eq_some_iff.1 h
        obtain ⟨inner', hi, h⟩ := Option.bind_eq_some_iff.1 h
        cases h
        exact .element declared named scanned resolved (ihInner hi) (ihNext hn)
  · intro h
    induction h with
    | nil => rfl
    | leaf hk _ ih => cases hk <;> rw [Markup.resolve?, ih] <;> rfl
    | element declared named scanned resolved _ _ ihInner ihNext =>
      rw [Markup.resolve?, ihNext]
      simp only [bind, Option.bind_some, declared, named, scanned, resolved, ihInner]

end Markup

end SamlSeal.Xml
