import SamlSeal.Proofs.Markup

/-!
# Start tags as they are written

A start tag is a word for the name of the element, then words with quoted values for its
attributes, with gaps in between.

* `StartTag.Written`: a text starts with a tag of the given words,
* `StartTag.scan_of_written`: the scan finds these words, those that declare a namespace left out,
* `Item.Spelled`: every start tag that is read is written like this, and its names are what its
  words stand for,
* `Markup.sources_of_read?`: the start tags of a document stand in its text.
-/

namespace SamlSeal.Xml

namespace StartTag

/-! ### Words, gaps and values -/

/-- Nothing but gaps. -/
def IsGaps (cs : List Char) : Prop := ∀ c ∈ cs, isGap c = true

/-- A word that can stand in a tag: nothing in it ends a name or opens a value. -/
structure IsWord (word : List Char) : Prop where
  nonempty : word ≠ []
  ends : ∀ c ∈ word, endsName c = false
  equals : '=' ∉ word
  quotes : '"' ∉ word ∧ '\'' ∉ word

theorem isWord_iff {word : List Char} : IsWord word ↔ (!word.isEmpty &&
    word.all fun c => !endsName c && c != '=' && c != '"' && c != '\'') = true := by
  simp only [Bool.and_eq_true, Bool.not_eq_true', List.isEmpty_eq_false_iff, List.all_eq_true,
    bne_iff_ne]
  constructor
  · intro h
    refine ⟨h.nonempty, fun c hc => ⟨⟨⟨h.ends c hc, ?_⟩, ?_⟩, ?_⟩⟩ <;> rintro rfl
    · exact h.equals hc
    · exact h.quotes.1 hc
    · exact h.quotes.2 hc
  · rintro ⟨nonempty, plain⟩
    exact ⟨nonempty, fun c hc => (plain c hc).1.1.1, fun mem => (plain _ mem).1.1.2 rfl,
      fun mem => (plain _ mem).1.2 rfl, fun mem => (plain _ mem).2 rfl⟩

instance (word : List Char) : Decidable (IsWord word) :=
  decidable_of_decidable_of_iff isWord_iff.symm

/-- The words in front of the values in a tag, from the end of its name on.  What comes after the
tag does not matter. -/
inductive Attributes : List (List Char) → List Char → Prop
  | stop {gap rest : List Char} (gaps : IsGaps gap) : Attributes [] (gap ++ '>' :: rest)
  | close {gap rest : List Char} (gaps : IsGaps gap) : Attributes [] (gap ++ '/' :: '>' :: rest)
  | cons {gap word before after value rest : List Char} {quote : Char}
      {words : List (List Char)} (nonempty : gap ≠ []) (gaps : IsGaps gap) (isWord : IsWord word)
      (gapsBefore : IsGaps before) (gapsAfter : IsGaps after)
      (isQuote : quote = '"' ∨ quote = '\'') (inside : quote ∉ value)
      (more : Attributes words rest) :
      Attributes (word :: words) (gap ++ (word ++ (before ++ '=' :: (after ++
        quote :: (value ++ quote :: rest)))))

/-- A text starts with a tag: a word for its name, and words for its attributes. -/
inductive Written (word : List Char) (words : List (List Char)) : List Char → Prop
  | intro {rest : List Char} (isWord : IsWord word) (attributes : Attributes words rest) :
      Written word words ('<' :: (word ++ rest))

namespace IsGaps

theorem cons_of_ne_nil {gap : List Char} (gaps : IsGaps gap) (nonempty : gap ≠ []) :
    ∃ c tail, gap = c :: tail ∧ isGap c = true := by
  cases gap with
  | nil => exact absurd rfl nonempty
  | cons c tail => exact ⟨c, tail, rfl, gaps c List.mem_cons_self⟩

theorem dropWhile_append {gap : List Char} (gaps : IsGaps gap) {c : Char} (rest : List Char)
    (stop : isGap c = false) : (gap ++ c :: rest).dropWhile isGap = c :: rest := by
  rw [List.dropWhile_append_of_pos gaps, List.dropWhile_cons_of_neg (by simp [stop])]

end IsGaps

namespace Attributes

variable {words : List (List Char)} {cs : List Char}

/-- Something ends the word in front of the attributes. -/
theorem head (h : Attributes words cs) : ∃ c tail, cs = c :: tail ∧ endsName c = true := by
  have gap_cons : ∀ {gap : List Char} {c : Char} (rest : List Char), IsGaps gap →
      endsName c = true → ∃ c' tail, gap ++ c :: rest = c' :: tail ∧ endsName c' = true := by
    intro gap c rest gaps ends
    cases gap with
    | nil => exact ⟨c, rest, rfl, ends⟩
    | cons b gap => exact ⟨b, _, rfl, by simp [endsName, gaps b List.mem_cons_self]⟩
  cases h with
  | stop gaps => exact gap_cons _ gaps (by decide)
  | close gaps => exact gap_cons _ gaps (by decide)
  | cons nonempty gaps =>
    obtain ⟨c, tail, rfl, isGap⟩ := gaps.cons_of_ne_nil nonempty
    exact ⟨c, _, rfl, by simp [endsName, isGap]⟩

/-- There are fewer words than characters. -/
theorem length_lt (h : Attributes words cs) : words.length < cs.length := by
  induction h with
  | stop _ => simp only [List.length_append, List.length_cons, List.length_nil]; omega
  | close _ => simp only [List.length_append, List.length_cons, List.length_nil]; omega
  | cons _ _ _ _ _ _ _ _ ih => simp only [List.length_append, List.length_cons]; omega

end Attributes

/-! ### The scan of a written tag -/

theorem skipValue?_of_written {before after value : List Char} {quote : Char}
    (gapsBefore : IsGaps before) (gapsAfter : IsGaps after) (isQuote : quote = '"' ∨ quote = '\'')
    (inside : quote ∉ value) (rest : List Char) :
    skipValue? (before ++ '=' :: (after ++ quote :: (value ++ quote :: rest))) = some rest := by
  have gap : isGap quote = false := by
    rcases isQuote with rfl | rfl <;> decide
  have closed : (value ++ quote :: rest).dropWhile (· != quote) = quote :: rest := by
    refine (span_of_stop (fun c hc => ?_) fun c hc => ?_).2
    · simpa using fun eq : c = quote => inside (eq ▸ hc)
    · obtain rfl := Option.some.inj hc
      simp
  rw [skipValue?, gapsBefore.dropWhile_append _ (by decide)]
  simp only [gapsAfter.dropWhile_append _ gap, if_pos isQuote, closed]

/-- A word ends at the gap or the equals sign after it. -/
theorem IsWord.span {word before : List Char} (isWord : IsWord word) (gaps : IsGaps before)
    (rest : List Char) :
    (word ++ (before ++ '=' :: rest)).takeWhile (fun c => c != '=' && !isGap c) = word ∧
      (word ++ (before ++ '=' :: rest)).dropWhile (fun c => c != '=' && !isGap c) =
        before ++ '=' :: rest := by
  refine span_of_stop (fun c hc => ?_) fun c hc => ?_
  · have ne : c ≠ '=' := fun eq => isWord.equals (eq ▸ hc)
    have ends := isWord.ends c hc
    simp only [endsName, Bool.or_eq_false_iff] at ends
    simp [ne, ends.1.1]
  · cases before with
    | nil =>
      obtain rfl := Option.some.inj hc
      rfl
    | cons b before =>
      obtain rfl := Option.some.inj hc
      simp [gaps b List.mem_cons_self]

/-- The words in attribute position are found, declarations left out. -/
theorem scanAttributes_of_written {words : List (List Char)} {cs : List Char}
    (h : Attributes words cs) {n : Nat} (hn : words.length < n) :
    scanAttributes n cs = some ((words.filter (!isDeclaration ·)).map String.ofList) := by
  induction h generalizing n with
  | stop gaps =>
    obtain ⟨n, rfl⟩ := Nat.exists_eq_succ_of_ne_zero (Nat.ne_of_gt (Nat.zero_lt_of_lt hn))
    rw [scanAttributes, gaps.dropWhile_append _ (by decide)]
    rfl
  | close gaps =>
    obtain ⟨n, rfl⟩ := Nat.exists_eq_succ_of_ne_zero (Nat.ne_of_gt (Nat.zero_lt_of_lt hn))
    rw [scanAttributes, gaps.dropWhile_append _ (by decide)]
    rfl
  | @cons gap word before after value rest quote words nonempty gaps isWord gapsBefore
      gapsAfter isQuote inside more ih =>
    obtain ⟨n, rfl⟩ := Nat.exists_eq_succ_of_ne_zero (Nat.ne_of_gt (Nat.zero_lt_of_lt hn))
    obtain ⟨taken, dropped⟩ := isWord.span gapsBefore (after ++ quote :: (value ++ quote :: rest))
    have value := skipValue?_of_written gapsBefore gapsAfter isQuote inside rest
    have others := ih (Nat.lt_of_succ_lt_succ hn)
    cases word with
    | nil => exact absurd rfl isWord.nonempty
    | cons c word =>
      have ends := isWord.ends c List.mem_cons_self
      simp only [endsName, Bool.or_eq_false_iff, beq_eq_false_iff_ne] at ends
      have goes : ¬ (c = '>' ∨ c = '/') := by
        rintro (eq | eq)
        · exact ends.2 eq
        · exact ends.1.2 eq
      rw [List.cons_append] at taken dropped ⊢
      rw [scanAttributes, gaps.dropWhile_append _ ends.1.1]
      simp only [if_neg goes, taken, dropped, value, others, bind, Option.bind_some,
        List.filter_cons]
      cases isDeclaration (c :: word) <;> rfl

/-- The scan of a start tag finds its words. -/
theorem scan_of_written {word : List Char} {words : List (List Char)} {cs : List Char}
    (h : Written word words cs) : scan cs =
      some ⟨String.ofList word, (words.filter (!isDeclaration ·)).map String.ofList⟩ := by
  obtain ⟨isWord, attributes⟩ := h
  next rest =>
  have lt : words.length < (word ++ rest).length :=
    Nat.lt_of_lt_of_le attributes.length_lt (by simp)
  obtain ⟨taken, dropped⟩ : (word ++ rest).takeWhile (!endsName ·) = word ∧
      (word ++ rest).dropWhile (!endsName ·) = rest := by
    obtain ⟨c, tail, eq, ends⟩ := attributes.head
    refine span_of_stop (fun c hc => by simp [isWord.ends c hc]) fun c' hc => ?_
    rw [eq] at hc
    obtain rfl := Option.some.inj hc
    simp [ends]
  rw [scan, dropped, taken, scanAttributes_of_written attributes lt]
  rfl

/-- A start tag can be cut into words in one way, as far as the scan tells. -/
theorem Written.unique {word word' : List Char} {words words' : List (List Char)} {cs : List Char}
    (h : Written word words cs) (h' : Written word' words' cs) :
    word' = word ∧
      words'.filter (!isDeclaration ·) = words.filter (!isDeclaration ·) := by
  have eq := Option.some.inj ((scan_of_written h').symm.trans (scan_of_written h))
  obtain ⟨name, names⟩ := StartTag.mk.inj eq
  exact ⟨String.ofList_injective name,
    List.map_injective_iff.2 (fun _ _ => String.ofList_injective) names⟩

end StartTag

/-! ### Tags that are read -/

theorem isGap_of_isSpace {c : Char} (h : isSpace c = true) : StartTag.isGap c = true := by
  simp only [isSpace, Bool.or_eq_true, beq_iff_eq] at h
  rcases h with ((rfl | rfl) | rfl) | rfl <;> decide

theorem isGaps_takeWhile (cs : List Char) : StartTag.IsGaps (cs.takeWhile isSpace) :=
  fun _ hc => isGap_of_isSpace (List.mem_takeWhile_imp hc)

/-- What the scan takes for a declaration is one. -/
theorem IsWordOf.declares {word : List Char} {name : WrittenName} (h : IsWordOf word name)
    (declares : StartTag.isDeclaration word = true) : Tag.declares name = true := by
  simp only [StartTag.isDeclaration, Bool.or_eq_true, beq_iff_eq, List.isPrefixOf_iff_prefix]
    at declares
  rcases declares with rfl | ⟨tail, rfl⟩
  · have eq : some (⟨"", String.ofList ['x', 'm', 'l', 'n', 's']⟩ : WrittenName) = some name := h.1
    rw [← Option.some.inj eq]
    rfl
  · have pfx := h.writtenPfx?
    have front : (SamlSeal.Xml.writtenPfx?
        (String.ofList (['x', 'm', 'l', 'n', 's', ':'] ++ tail))).getD "" = "xmlns" := by
      rw [SamlSeal.Xml.writtenPfx?, String.toList_ofList]
      rfl
    rw [front] at pfx
    simp [Tag.declares, ← pfx]

/-- What ends the name of a start tag is no part of a name. -/
theorem endsName_of_isNameChar {c : Char} (h : isNameChar c = true) :
    StartTag.endsName c = false := by
  refine Bool.eq_false_iff.2 fun ends => ?_
  simp only [StartTag.endsName, StartTag.isGap, Bool.or_eq_true, beq_iff_eq] at ends
  rcases ends with (((((rfl | rfl) | rfl) | rfl) | rfl) | rfl) | rfl <;> exact absurd h (by decide)

theorem isWord_of_chars {word : List Char} (nonempty : word ≠ [])
    (chars : ∀ c ∈ word, isNameChar c = true) : StartTag.IsWord word where
  nonempty := nonempty
  ends c hc := endsName_of_isNameChar (chars c hc)
  equals mem := absurd (chars _ mem) (by decide)
  quotes := ⟨fun mem => absurd (chars _ mem) (by decide),
    fun mem => absurd (chars _ mem) (by decide)⟩

theorem IsWordOf.isWord {word : List Char} {name : WrittenName} (h : IsWordOf word name) :
    StartTag.IsWord word := isWord_of_chars h.ne_nil h.2

/-- What is read in attribute position is written there. -/
theorem AttributesRead.written {cs rest : List Char} {closed : Bool}
    {as : List (WrittenName × String)} (h : AttributesRead cs as closed rest) :
    ∃ words, StartTag.Attributes words cs ∧
      List.Forall₂ (fun word a => IsWordOf word a.1) words as := by
  induction h with
  | @stop cs rest ends =>
    have split := List.takeWhile_append_dropWhile (p := isSpace) (l := cs)
    rw [ends] at split
    exact ⟨[], split ▸ .stop (isGaps_takeWhile cs), .nil⟩
  | @close cs rest ends =>
    have split := List.takeWhile_append_dropWhile (p := isSpace) (l := cs)
    rw [ends] at split
    exact ⟨[], split ▸ .close (isGaps_takeWhile cs), .nil⟩
  | @cons cs raw value rest _ name as closed space quoted _ _ ih =>
    obtain ⟨words, written, all⟩ := ih
    obtain ⟨word, after, quote, inside, equals, opened, isQuote, rfl, closes, -⟩ :=
      quoted?_cases quoted
    have nonempty : cs.takeWhile isSpace ≠ [] := by
      cases cs with
      | nil => cases space
      | cons c cs =>
        rw [List.takeWhile_cons_of_pos (by simpa using space)]
        exact List.cons_ne_nil _ _
    have outside : quote ∉ inside.takeWhile (fun c => c != quote && c != '<') := by
      intro mem
      simpa using List.mem_takeWhile_imp mem
    refine ⟨_ :: words, ?_, .cons word all⟩
    -- each stretch of the text is what its test takes, and the next one starts where that stops
    have whole := StartTag.Attributes.cons nonempty (isGaps_takeWhile cs) word.isWord
      (isGaps_takeWhile ((cs.dropWhile isSpace).dropWhile isNameChar)) (isGaps_takeWhile after)
      isQuote outside written
    rwa [← closes, List.takeWhile_append_dropWhile, ← opened, List.takeWhile_append_dropWhile,
      ← equals, List.takeWhile_append_dropWhile, List.takeWhile_append_dropWhile,
      List.takeWhile_append_dropWhile] at whole

/-- A start tag is written with words that its names were read from. -/
def Item.Spelled : Item → Prop
  | .element source tag => ∃ word words, StartTag.Written word words source ∧
      IsWordOf word tag.name ∧ List.Forall₂ (fun word a => IsWordOf word a.1) words tag.attributes
  | _ => True

/-- The start tag of an element stands in a text. -/
def Item.StandsIn (text : List Char) : Item → Prop
  | .element source _ => source <:+ text
  | _ => True

theorem Item.StandsIn.mono {cs cs' : List Char} (suffix : cs <:+ cs') {item : Item}
    (h : item.StandsIn cs) : item.StandsIn cs' := by
  cases item with
  | element source tag => exact List.IsSuffix.trans h suffix
  | _ => trivial

namespace Token

theorem start?_spelled {cs rest : List Char} {t : Token} (h : start? cs = some (t, rest)) :
    t.Makes Item.Spelled := by
  obtain ⟨name, as, closed, rfl, word, attributes⟩ := start?_cases h
  obtain ⟨words, written, all⟩ := attributes.written
  have whole := StartTag.Written.intro word.isWord written
  rw [List.takeWhile_append_dropWhile] at whole
  exact ⟨_, words, whole, word, all⟩

theorem Maker.spelled : Maker Item.Spelled := by
  refine .of_start start?_spelled fun item other => ?_
  cases item with
  | element => cases other
  | _ => trivial

/-! ### Where tags stand -/

/-- A start tag stands where it is read. -/
theorem standsIn_of_next? {cs rest : List Char} {t : Token} (h : next? cs = some (t, rest)) :
    t.Makes (Item.StandsIn cs) := by
  cases next_of_next? h with
  | comment h =>
    obtain ⟨raw, rfl, -⟩ := comment?_cases h
    trivial
  | literal h =>
    obtain ⟨raw, rfl, -⟩ := literal?_cases h
    trivial
  | instruction h =>
    obtain ⟨raw, rfl, -⟩ := instruction?_cases h
    trivial
  | stop h =>
    obtain ⟨name, rfl, -⟩ := stop?_cases h
    trivial
  | start h =>
    obtain ⟨name, as, closed, rfl, -⟩ := start?_cases h
    exact List.suffix_rfl
  | text h =>
    obtain ⟨rfl, -⟩ := text?_cases h
    exact fun _ _ => trivial

end Token

/-- The start tags of a document stand in its text. -/
theorem Markup.sources_of_read? {cs : List Char} {m : Markup} (h : read? cs = some m) :
    m.All (Item.StandsIn cs) := by
  obtain ⟨cs', ts, suffix, tokens, made, -⟩ := read?_cases h
  refine all_ofTokens? (fun _ _ => trivial) (fun t ht => ?_) made
  obtain ⟨here, rest, inside, read⟩ := Token.next?_of_mem_atMost? tokens ht
  exact (Token.standsIn_of_next? read).imp fun item => Item.StandsIn.mono (inside.trans suffix)

end SamlSeal.Xml
