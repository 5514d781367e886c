import SamlSeal.Text.Blank

/-!
# Words in a text

A text that holds some words with gaps between them, said without cutting it.

* `Text.Spaced`: the words stand in the text in order, with characters of the gaps between them,
* `Text.HoldsWords`: the gaps are blanks, and no word holds one,
* `Text.words_eq_iff`: `words` finds exactly the words that a text holds.
-/

namespace SamlSeal.Text

variable {gap : Char → Bool}

/-- A text holds some words in order.  There is a gap between any two of them, and there may be gaps
around them. -/
inductive Spaced (gap : Char → Bool) : List (List Char) → List Char → Prop
  | nil {front : List Char} (gaps : ∀ c ∈ front, gap c = true) : Spaced gap [] front
  | cons {front word rest : List Char} {words : List (List Char)}
    (gaps : ∀ c ∈ front, gap c = true) (apart : ∀ c ∈ rest.head?, gap c = true)
    (later : Spaced gap words rest) : Spaced gap (word :: words) (front ++ word ++ rest)

/-- A text holds some words and besides them nothing but blanks. -/
structure HoldsWords (ws : List (List Char)) (cs : List Char) : Prop where
  spaced : Spaced isBlank ws cs
  solid : ∀ w ∈ ws, w ≠ [] ∧ ∀ c ∈ w, isBlank c = false

theorem Spaced.mono {gap' : Char → Bool} (le : ∀ c, gap c = true → gap' c = true)
    {ws : List (List Char)} {cs : List Char} (h : Spaced gap ws cs) : Spaced gap' ws cs := by
  induction h with
  | nil gaps => exact .nil fun c hc => le c (gaps c hc)
  | cons gaps apart _ ih =>
    exact .cons (fun c hc => le c (gaps c hc)) (fun c hc => le c (apart c hc)) ih

/-- More of a gap in front changes nothing. -/
theorem Spaced.gap_cons {c : Char} (hc : gap c = true) {ws : List (List Char)} {cs : List Char}
    (h : Spaced gap ws cs) : Spaced gap ws (c :: cs) := by
  cases h with
  | nil gaps => exact .nil (List.forall_mem_cons.2 ⟨hc, gaps⟩)
  | cons gaps apart later => exact .cons (List.forall_mem_cons.2 ⟨hc, gaps⟩) apart later

/-! ### Cutting -/

theorem words_append_blank {c : Char} (h : isBlank c = true) (cs ds : List Char) :
    words (cs ++ c :: ds) = words cs ++ words ds := by
  simp [words, List.splitOnP_append_cons cs ds h]

theorem words_cons_blank {c : Char} (h : isBlank c = true) (cs : List Char) :
    words (c :: cs) = words cs := by
  simpa [words] using words_append_blank h [] cs

theorem words_append_of_blanks {front : List Char} (h : ∀ c ∈ front, isBlank c = true)
    (cs : List Char) : words (front ++ cs) = words cs := by
  induction front with
  | nil => rfl
  | cons c front ih =>
    obtain ⟨blank, blanks⟩ := List.forall_mem_cons.1 h
    rw [List.cons_append, words_cons_blank blank, ih blanks]

theorem words_of_blanks {front : List Char} (h : ∀ c ∈ front, isBlank c = true) :
    words front = [] := by
  simpa [words] using words_append_of_blanks h []

theorem words_of_solid {word : List Char} (ne : word ≠ []) (h : ∀ c ∈ word, isBlank c = false) :
    words word = [word] := by
  simp [words, List.splitOnP_eq_singleton h, ne]

/-- Words with blanks between them are found again. -/
theorem HoldsWords.words_eq {ws : List (List Char)} {cs : List Char} (h : HoldsWords ws cs) :
    words cs = ws := by
  obtain ⟨spaced, solid⟩ := h
  induction spaced with
  | nil blanks => exact words_of_blanks blanks
  | @cons front word rest ws blanks apart later ih =>
    obtain ⟨⟨ne, plain⟩, others⟩ := List.forall_mem_cons.1 solid
    have found := ih others
    rw [List.append_assoc, words_append_of_blanks blanks]
    cases rest with
    | nil =>
      rw [List.append_nil, words_of_solid ne plain, ← found]
      rfl
    | cons c rest =>
      -- the blank after the word ends it, and belongs to no word itself
      have blank := apart c rfl
      rw [words_append_blank blank, words_of_solid ne plain, ← words_cons_blank blank, found]
      rfl

/-- A text that goes on with a blank after a word holds the word and then what it holds from
there. -/
theorem HoldsWords.cons {word rest : List Char} {ws : List (List Char)} (ne : word ≠ [])
    (plain : ∀ c ∈ word, isBlank c = false) (apart : ∀ c ∈ rest.head?, isBlank c = true)
    (h : HoldsWords ws rest) : HoldsWords (word :: ws) (word ++ rest) :=
  ⟨.cons (List.forall_mem_nil _) apart h.spaced, List.forall_mem_cons.2 ⟨⟨ne, plain⟩, h.solid⟩⟩

theorem holdsWords_nil : HoldsWords [] [] := ⟨.nil (List.forall_mem_nil _), List.forall_mem_nil _⟩

/-- What is found is in the text, also if a word has begun. -/
theorem holdsWords_append {word : List Char} (plain : ∀ c ∈ word, isBlank c = false)
    (cs : List Char) : HoldsWords (words (word ++ cs)) (word ++ cs) := by
  induction cs generalizing word with
  | nil =>
    by_cases empty : word = []
    · subst empty
      exact holdsWords_nil
    · have whole : HoldsWords [word] (word ++ []) :=
        holdsWords_nil.cons empty plain (by rintro c ⟨⟩)
      rw [List.append_nil] at whole ⊢
      rwa [words_of_solid empty plain]
  | cons c cs ih =>
    by_cases blank : isBlank c = true
    · have later : HoldsWords (words cs) (c :: cs) := by
        obtain ⟨spaced, solid⟩ := @ih [] (List.forall_mem_nil _)
        exact ⟨spaced.gap_cons blank, solid⟩
      rw [words_append_blank blank]
      by_cases empty : word = []
      · subst empty
        exact later
      · rw [words_of_solid empty plain]
        refine later.cons empty plain ?_
        rintro _ ⟨⟩
        exact blank
    · -- the word goes on
      have further : ∀ x ∈ word ++ [c], isBlank x = false :=
        List.forall_mem_append.2
          ⟨plain, List.forall_mem_singleton.2 (Bool.eq_false_iff.2 blank)⟩
      rw [List.append_cons]
      exact ih further

/-- The words of a text are the ones that it holds. -/
theorem words_eq_iff {ws : List (List Char)} {cs : List Char} :
    words cs = ws ↔ HoldsWords ws cs :=
  ⟨fun h => h ▸ holdsWords_append (List.forall_mem_nil _) cs, HoldsWords.words_eq⟩

end SamlSeal.Text
