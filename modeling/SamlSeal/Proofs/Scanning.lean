import SamlSeal.Proofs.StartTags

/-!
# Names found again

A start tag is read twice: once for what it says, and once by `StartTag.scan` for the names as they
are written.  `Item.Scanned` says that the two agree for every start tag of a document: the scan
finds the words that the names were read from, in order, without those that declare a namespace.

A scan and a reading differ only in attributes with a prefix and the local name `xmlns`, which the
scan takes for attributes; if it finds as many names as there are attributes, there is none of
these, and each name is the one of its attribute (`words_of_length_eq`).
-/

namespace SamlSeal.Xml

/-! ### Start tags -/

/-- The scan of a start tag finds the words that its names were read from. -/
def Item.Scanned : Item → Prop
  | .element source tag => ∃ word words, IsWordOf word tag.name ∧
      List.Forall₂ (fun word a => IsWordOf word a.1) words tag.attributes ∧
      StartTag.scan source = some ⟨String.ofList word,
        (words.filter (!StartTag.isDeclaration ·)).map String.ofList⟩
  | _ => True

theorem Item.Spelled.scanned {item : Item} (h : item.Spelled) : item.Scanned := by
  cases item with
  | element source tag =>
    obtain ⟨word, words, written, isWord, all⟩ := h
    exact ⟨word, words, isWord, all, StartTag.scan_of_written written⟩
  | _ => trivial

theorem Token.Maker.scanned : Token.Maker Item.Scanned := by
  refine .of_start (fun h => (start?_spelled h).imp fun _ => Item.Spelled.scanned) ?_
  intro item other
  cases item with
  | element => cases other
  | _ => trivial

/-! ### Attributes and their words -/

/-- If the scan finds as many names as there are attributes, they are the words of the
attributes. -/
theorem words_of_length_eq {words : List (List Char)} {as : List (WrittenName × String)}
    (all : List.Forall₂ (fun word a => IsWordOf word a.1) words as)
    (same : (words.filter (!StartTag.isDeclaration ·)).length =
      (as.filter (!Tag.declares ·.1)).length) :
    List.Forall₂ (fun word a => IsWordOf word a.1) (words.filter (!StartTag.isDeclaration ·))
      (as.filter (!Tag.declares ·.1)) := by
  have le : ∀ {words : List (List Char)} {as : List (WrittenName × String)},
      List.Forall₂ (fun word a => IsWordOf word a.1) words as →
      (as.filter (!Tag.declares ·.1)).length ≤
        (words.filter (!StartTag.isDeclaration ·)).length := by
    intro words as all
    induction all with
    | nil => exact Nat.le_refl _
    | @cons word a words as head _ ih =>
      have declares := head.declares
      simp only [List.filter_cons]
      cases hw : StartTag.isDeclaration word <;> cases ha : Tag.declares a.1 <;>
        simp [hw, ha] at declares ih ⊢ <;> omega
  induction all with
  | nil => exact .nil
  | @cons word a words as head tail ih =>
    have declares := head.declares
    have rest := le tail
    simp only [List.filter_cons] at same ⊢
    cases hw : StartTag.isDeclaration word <;> cases ha : Tag.declares a.1 <;>
      simp [hw, ha] at same declares ⊢
    · exact ⟨head, ih same⟩
    · omega
    · exact ih same

end SamlSeal.Xml
