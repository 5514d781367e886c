import SamlSeal.Proofs.Restating

/-!
# Canonical form is a fixpoint

The canonical form of an element or of a document is itself the text of a document, and this
document has the same canonical form.

* `tree`: the tree that a canonical form writes, its texts put together,
* `Printable`: what the pieces of a canonical form have to be so that it can be read,
* `Printable.spells`, `Printable.stands`: the tree is then read from the form,
* `Printable.rerender`, `rerender_outside`: the form is written again of the tree that was read,
* `Document.printable_retain`, `Document.printable_outside`: all that is retained of a document that
  was read is like this.
-/

namespace SamlSeal.Canonical

open Xml

/-! ### The tree that a canonical form writes -/

/-- Puts a text in front of a tree.  Texts that touch are one text, and an empty one is none. -/
def consText (content : String) : Forest Kind → Forest Kind
  | .node (.text s) inner next => .node (.text (content ++ s)) inner next
  | f => if content = "" then f else .node (.text content) .nil f

/-- The tree that the canonical form of some pieces writes, as it is read again: line breaks between
the outermost nodes leave no trace. -/
def tree (inclusive : List String) (scope written : Scope) : Forest (Piece Element) → Forest Kind
  | .nil => .nil
  | .node piece inner next =>
    let next := tree inclusive scope written next
    match piece with
    | .element e =>
      let inside := scope.declare e.declarations
      .node (.element (canonized inclusive inside written e))
        (tree inclusive inside ((Opening.ofElement inclusive inside written e).bindings written) inner)
        next
    | .text content => consText content next
    | .comment content => .node (.comment content) .nil next
    | .instruction target data => .node (.instruction target (plainData data)) .nil next
    | .lineBreak => next

/-- Pieces whose canonical form can be read again, in the given bindings.  If `outer`, nothing is
around them; then they hold no texts, and line breaks do not touch. -/
inductive Printable (comments : Bool) : Bool → Scope → Forest (Piece Element) → Prop
  | nil {outer : Bool} {scope : Scope} : Printable comments outer scope .nil
  | element {outer : Bool} {scope : Scope} {e : Element} {inner next : Forest (Piece Element)}
    (writable : (Kind.element e).Writable) (consistent : e.Consistent (scope.declare e.declarations))
    (hi : Printable comments false (scope.declare e.declarations) inner)
    (hn : Printable comments outer scope next) :
    Printable comments outer scope (.node (.element e) inner next)
  | text {scope : Scope} {content : String} {next : Forest (Piece Element)}
    (writable : (Kind.text content).Writable) (hn : Printable comments false scope next) :
    Printable comments false scope (.node (.text content) .nil next)
  | comment {outer : Bool} {scope : Scope} {content : String} {next : Forest (Piece Element)}
    (kept : comments = true) (writable : (Kind.comment content).Writable)
    (hn : Printable comments outer scope next) :
    Printable comments outer scope (.node (.comment content) .nil next)
  | instruction {outer : Bool} {scope : Scope} {target : String} {data : Option String}
    {next : Forest (Piece Element)} (writable : (Kind.instruction target data).Writable)
    (hn : Printable comments outer scope next) :
    Printable comments outer scope (.node (.instruction target data) .nil next)
  | lineBreak {scope : Scope} {next : Forest (Piece Element)}
    (apart : ∀ p ∈ next.roots.head?, p ≠ .lineBreak) (hn : Printable comments true scope next) :
    Printable comments true scope (.node .lineBreak .nil next)

/-! ### Reading the tree -/

theorem stands_consText {ns : Namespaces} {f : Forest Kind} (h : Stands ns f) (content : String) :
    Stands ns (consText content f) := by
  unfold consText
  split
  · cases h with
    | leaf hk hn => exact .leaf rfl hn
  · split
    · exact h
    · exact .leaf rfl h

/-- The data of a processing instruction can be written after it was made plain. -/
theorem instructionFits_plainData {target : String} {data : Option String}
    (h : InstructionFits target data) : InstructionFits target (plainData data) := by
  refine ⟨h.start, h.chars, fun s hs => ?_⟩
  cases data with
  | none => cases hs
  | some t =>
    obtain ⟨ne, chars, first, unbroken⟩ := h.data t rfl
    obtain ⟨eq, ne'⟩ := plainData_of_ne ne
    rw [eq] at hs
    obtain rfl := Option.some.inj hs
    rw [String.toList_ofList]
    refine ⟨ne', fun c hc => ?_, ?_, Escape.unbroken_instruction unbroken⟩
    · obtain ⟨b, hb, hc⟩ := List.mem_flatMap.1 hc
      by_cases isReturn : b = '\r'
      · have reference : ∀ c ∈ Escape.instructionChar '\r', isChar c = true :=
          List.all_eq_true.1 (by decide)
        exact reference c (isReturn ▸ hc)
      · rw [Escape.instructionChar_of_ne isReturn, List.mem_singleton] at hc
        exact hc ▸ chars b hb
    · cases list : t.toList with
      | nil => simp [Escape.instruction]
      | cons b bs =>
        rw [list] at first
        have notSpace := first b rfl
        have plain : b ≠ '\r' := by
          rintro rfl
          exact absurd notSpace (by decide)
        rw [Escape.instruction, List.flatMap_cons, Escape.instructionChar_of_ne plain]
        rintro c hc
        exact Option.some.inj hc ▸ notSpace

theorem writeData_eq_plainData {data : Option String} :
    Xml.writeData (plainData data) = Canonical.writeData data := by
  cases data with
  | none => rfl
  | some s =>
    by_cases empty : s = ""
    · rw [plainData, if_pos empty, Canonical.writeData, if_pos empty]
      rfl
    · obtain ⟨eq, ne⟩ := plainData_of_ne empty
      rw [eq, Xml.writeData, if_neg ne, Canonical.writeData, if_neg empty, String.toList_ofList]

/-- A tree does not start with an empty text. -/
theorem solid_tree (inclusive : List String) (scope written : Scope) (f : Forest (Piece Element)) :
    ∀ k ∈ (tree inclusive scope written f).roots.head?, k ≠ .text "" := by
  induction f with
  | nil => simp [tree, Forest.roots]
  | node piece inner next _ ih =>
    cases piece with
    | element | comment | instruction =>
      rintro k hk
      obtain rfl := Option.some.inj hk
      simp
    | text content =>
      rw [tree]
      unfold consText
      split
      · next s inner' next' eq =>
        rintro k hk
        obtain rfl := Option.some.inj hk
        rw [eq] at ih
        have ne := ih _ rfl
        intro empty
        have both := String.append_eq_empty_iff.1 (Kind.text.inj empty)
        exact ne (congrArg Kind.text both.2)
      · split
        · exact ih
        · next ne =>
          rintro k hk
          obtain rfl := Option.some.inj hk
          simpa using ne
    | lineBreak => exact ih

theorem spells_consText {f : Forest Kind} {m : Markup} {cs rest : List Char}
    (h : Spells false f m cs rest) (solid : ∀ k ∈ f.roots.head?, k ≠ .text "") {content : String}
    (chars : ∀ c ∈ content.toList, isChar c = true) :
    ∃ m', Spells false (consText content f) m' (Escape.text content.toList ++ cs) rest := by
  unfold consText
  split
  · next s inner next =>
    cases h with
    | @text _ _ m cs _ ne chars' apart hn =>
      rw [← List.append_assoc, ← Escape.text_append, ← String.toList_append]
      refine ⟨_, .text (fun empty => ne (String.append_eq_empty_iff.1 empty).2) ?_ apart hn⟩
      rw [String.toList_append]
      exact List.forall_mem_append.2 ⟨chars, chars'⟩
    | empty => exact absurd rfl (solid _ rfl)
  · next other =>
    by_cases empty : content = ""
    · rw [if_pos empty, empty]
      exact ⟨m, h⟩
    · rw [if_neg empty]
      refine ⟨_, .text empty chars (h.apart fun k hk => ?_) h⟩
      cases f with
      | nil => cases hk
      | node kind inner next =>
        obtain rfl := Option.some.inj hk
        cases kind with
        | text s => exact absurd rfl (other s inner next)
        | _ => rfl

namespace Printable

variable {comments outer : Bool} {scope written reread : Scope} {ns : Namespaces}
  {f : Forest (Piece Element)}

/-- The tree that is written is read as what it is. -/
theorem stands (h : Printable comments outer scope f) (restated : Restated scope written ns reread)
    (inclusive : List String) : Stands ns (tree inclusive scope written f) := by
  induction h generalizing written ns reread with
  | nil => exact .nil
  | element writable consistent _ _ ihInner ihNext =>
    obtain ⟨sound, fit, plain⟩ := writable
    have inside := restated.step sound fit rfl inclusive
    refine .element ?_ (ihInner inside) (ihNext restated)
    exact (fit_canonized inside.proper inside.fit fit).stands (sound_canonized inside.sound sound)
      inside.bindable inside.single (inside.consistent rfl sound fit consistent)
      fun a ha => plain a (mem_canonized.1 ha)
  | text _ _ ih => exact stands_consText (ih restated) _
  | comment _ _ _ ih => exact .leaf rfl (ih restated)
  | instruction _ _ ih => exact .leaf rfl (ih restated)
  | lineBreak _ _ ih => exact ih restated

/-- Outside the document element everything but a line break starts with a bracket. -/
theorem head (h : Printable comments true scope f) (first : ∀ p ∈ f.roots.head?, p ≠ .lineBreak)
    (inclusive : List String) (written : Scope) {rest : List Char}
    (stop : ∀ c ∈ rest.head?, c = '<') :
    ∀ c ∈ (write (render inclusive scope written f) ++ rest).head?, c = '<' := by
  cases h with
  | nil => exact stop
  | element | comment | instruction =>
    rintro c hc
    exact (Option.some.inj hc).symm
  | lineBreak => exact absurd rfl (first _ rfl)

/-- What canonical form writes can be read. -/
theorem spells (h : Printable comments outer scope f) (restated : Restated scope written ns reread)
    (inclusive : List String) {rest : List Char} (stop : ∀ c ∈ rest.head?, c = '<') :
    ∃ m, Spells outer (tree inclusive scope written f) m
      (write (render inclusive scope written f) ++ rest) rest := by
  induction h generalizing written ns reread rest with
  | nil => exact ⟨.nil, .nil⟩
  | @element outer scope e inner next writable consistent _ _ ihInner ihNext =>
    obtain ⟨sound, fit, -⟩ := writable
    have step := restated.step sound fit rfl inclusive
    have fits := (fit_canonized step.proper step.fit fit).tag_fits
      (sound_canonized step.sound sound) step.bindable.toScope
      (step.consistent rfl sound fit consistent)
    obtain ⟨m, hm⟩ := ihNext restated stop
    have closing : ∀ c ∈ (['<', '/'] ++
        (canonized inclusive (scope.declare e.declarations) written e).tag.name.print ++ ['>'] ++
          (write (render inclusive scope written next) ++ rest)).head?, c = '<' := by simp
    obtain ⟨mi, hmi⟩ := ihInner step closing
    rw [write_render_element rfl step.sound fit consistent]
    exact ⟨_, .element fits hmi hm⟩
  | text writable _ ih =>
    obtain ⟨m, hm⟩ := ih restated stop
    simp only [render, write, List.append_assoc]
    exact spells_consText hm (solid_tree inclusive _ written _) writable.fit
  | @comment outer scope content next _ writable _ ih =>
    obtain ⟨m, hm⟩ := ih restated stop
    have text : write (render inclusive scope written (.node (.comment content) .nil next)) ++ rest =
        ['<', '!', '-', '-'] ++ content.toList ++ ['-', '-', '>'] ++
          (write (render inclusive scope written next) ++ rest) := by
      simp [render, write]
    rw [text]
    exact ⟨_, .comment writable.fit hm⟩
  | @instruction outer scope target data next writable _ ih =>
    obtain ⟨m, hm⟩ := ih restated stop
    have text : write (render inclusive scope written (.node (.instruction target data) .nil next)) ++
        rest = ['<', '?'] ++ target.toList ++ Xml.writeData (plainData data) ++ ['?', '>'] ++
          (write (render inclusive scope written next) ++ rest) := by
      simp [render, write, writeData_eq_plainData]
    rw [text]
    exact ⟨_, .instruction (instructionFits_plainData writable.fit) writable.plain hm⟩
  | lineBreak apart hn ih =>
    obtain ⟨m, hm⟩ := ih restated stop
    exact ⟨m, .lineBreak (hn.head apart inclusive written stop) hm⟩

end Printable

/-! ### Writing the tree that was read -/

section Rerender

variable {comments outer : Bool} {inclusive : List String} {scope written reread : Scope}
  {ns : Namespaces} {f : Forest (Piece Element)}

theorem rerender_text (content : String) (inner next : Forest Kind) :
    write (render inclusive scope written
      (pieces comments .inside (Forest.reread ns (.node (.text content) inner next)))) =
        Escape.text content.toList ++
          write (render inclusive scope written (pieces comments .inside (next.reread ns))) := by
  rw [Forest.reread]
  split
  · next empty =>
    rw [empty]
    rfl
  · rfl

theorem rerender_consText (content : String) (f : Forest Kind) :
    write (render inclusive scope written
      (pieces comments .inside ((consText content f).reread ns))) =
        Escape.text content.toList ++
          write (render inclusive scope written (pieces comments .inside (f.reread ns))) := by
  unfold consText
  split
  · rw [rerender_text, rerender_text, String.toList_append, Escape.text_append, List.append_assoc]
  · split
    · next empty =>
      rw [empty]
      rfl
    · exact rerender_text content .nil f

/-- What is written of an element that was read, given what is written inside it and after it. -/
theorem rerender_element {e : Element} (writable : (Kind.element e).Writable)
    (restated : Restated scope written ns reread) {inside : Scope}
    (here : inside = scope.declare e.declarations) {inner inner' next next' : Forest (Piece Element)}
    (content : write (render inclusive
        (reread.declare ((canonized inclusive inside written e).reread ns).declarations)
        ((Opening.ofElement inclusive inside written e).bindings written) inner') =
      write (render inclusive inside
        ((Opening.ofElement inclusive inside written e).bindings written) inner))
    (rest : write (render inclusive reread written next') =
      write (render inclusive scope written next)) :
    write (render inclusive reread written
      (.node (.element ((canonized inclusive inside written e).reread ns)) inner' next')) =
      write (render inclusive scope written (.node (.element e) inner next)) := by
  have tag : Opening.ofElement inclusive
      (reread.declare ((canonized inclusive inside written e).reread ns).declarations) written
      ((canonized inclusive inside written e).reread ns) =
      Opening.ofElement inclusive inside written e :=
    (restated.step writable.sound writable.fit here inclusive).ofElement_eq rfl
  rw [render, render, write, write]
  simp only [tag, ← here, content, rest]

/-- What is written of the tree that was read is what was read. -/
theorem Printable.rerender (h : Printable comments outer scope f) (inside : outer = false)
    (restated : Restated scope written ns reread) :
    write (render inclusive reread written
      (pieces comments .inside ((tree inclusive scope written f).reread ns))) =
        write (render inclusive scope written f) := by
  induction h generalizing written ns reread with
  | nil => rfl
  | element writable _ _ _ ihInner ihNext =>
    exact rerender_element writable restated rfl
      (ihInner rfl (restated.step writable.sound writable.fit rfl inclusive))
      (ihNext inside restated)
  | text _ _ ih => rw [tree, rerender_consText, ih inside restated, render, write]
  | @comment outer scope content next kept _ _ ih =>
    have again : pieces comments .inside (Forest.reread ns
        (tree inclusive scope written (.node (.comment content) .nil next))) =
        .node (.comment content) .nil
          (pieces comments .inside (Forest.reread ns (tree inclusive scope written next))) := by
      rw [kept]
      rfl
    rw [again, render, render, write, write, ih inside restated]
  | @instruction outer scope target data next _ _ ih =>
    have again : pieces comments .inside (Forest.reread ns
        (tree inclusive scope written (.node (.instruction target data) .nil next))) =
        .node (.instruction target (plainData data)) .nil
          (pieces comments .inside (Forest.reread ns (tree inclusive scope written next))) := rfl
    rw [again, render, render, write, write, writeData_plainData, ih inside restated]
  | lineBreak => cases inside

end Rerender

/-! ### Outside the document element -/

section Outside

variable {comments : Bool} {inclusive : List String} {scope written : Scope} {ns : Namespaces}
  {before after : Bool} {siblings : Forest (NodeId × Kind)} {piece : Piece Element}
  {rest : Forest (Piece Element)}

/-- Line breaks leave no trace in the tree. -/
theorem tree_framed : tree inclusive scope written
    (framed (.outside before after) piece siblings rest) =
      tree inclusive scope written (.node piece .nil rest) := by
  simp only [framed]
  split <;> split <;> cases piece <;> rfl

theorem printable_framed
    (node : ∀ {next}, Printable comments true scope next →
      Printable comments true scope (.node piece .nil next)) (notBreak : piece ≠ .lineBreak)
    (apart : (hasElement siblings || after) = true → ∀ p ∈ rest.roots.head?, p ≠ .lineBreak)
    (h : Printable comments true scope rest) :
    Printable comments true scope (framed (.outside before after) piece siblings rest) := by
  have tail : Printable comments true scope
      (if hasElement siblings || after then .node .lineBreak .nil rest else rest) := by
    split
    · next some => exact .lineBreak (apart some) h
    · exact h
  simp only [framed]
  split
  · refine .lineBreak (fun p hp => ?_) (node tail)
    exact Option.some.inj hp ▸ notBreak
  · exact node tail

theorem of_printable_framed (h : Printable comments true scope
    (framed (.outside before after) piece siblings rest)) : Printable comments true scope rest := by
  have next {piece : Piece Element} {inner rest : Forest (Piece Element)}
      (h : Printable comments true scope (.node piece inner rest)) :
      Printable comments true scope rest := by
    cases h <;> assumption
  simp only [framed] at h
  split at h <;> split at h
  · exact next (next (next h))
  · exact next (next h)
  · exact next (next h)
  · exact next h

/-- As long as there was no element, no line break comes first. -/
theorem head_retain (f : Forest (NodeId × Kind)) :
    ∀ p ∈ (retain none comments (.outside false after) f).roots.head?, p ≠ .lineBreak := by
  have framed_head {after : Bool} {siblings : Forest (NodeId × Kind)} {piece : Piece Element}
      {rest : Forest (Piece Element)} (notBreak : piece ≠ .lineBreak) :
      ∀ p ∈ (framed (.outside false after) piece siblings rest).roots.head?, p ≠ .lineBreak :=
    fun p hp => Option.some.inj hp ▸ notBreak
  induction f generalizing after with
  | nil => simp [retain, Forest.roots]
  | node label inner next ihInner ihNext =>
    obtain ⟨id, kind⟩ := label
    rw [Document.retain_node, if_neg (Option.some_ne_none _).symm]
    cases kind with
    | document =>
      dsimp only
      rw [Forest.roots_append, List.head?_append]
      intro p hp
      rcases Option.or_eq_some_iff.1 hp with hp | ⟨-, hp⟩
      · exact ihInner p hp
      · exact ihNext p hp
    | element e => exact fun p hp => Option.some.inj hp ▸ by simp
    | text content => exact ihNext
    | comment content =>
      dsimp only
      split
      · exact framed_head (by simp)
      · exact ihNext
    | instruction target data => exact framed_head (by simp)

/-- The elements outside are kept. -/
theorem countP_tree {f : Forest (NodeId × Kind)} (documents : ∀ x ∈ f.roots, x.2 ≠ .document)
    (before : Bool) :
    (tree inclusive scope written (retain none comments (.outside before after) f)).roots.countP
      Kind.isElement = f.roots.countP fun x => x.2.isElement := by
  induction f generalizing before with
  | nil => rfl
  | node label inner next _ ih =>
    obtain ⟨id, kind⟩ := label
    obtain ⟨here, later⟩ := List.forall_mem_cons.1 documents
    have rest := ih later (before || kind.isElement)
    rw [Document.retain_node, if_neg (Option.some_ne_none _).symm, Forest.roots, List.countP_cons, ← rest]
    cases kind with
    | document => exact absurd rfl here
    | element e => rw [tree, Forest.roots, List.countP_cons]; rfl
    | text content => rfl
    | comment content =>
      dsimp only
      split
      · rw [tree_framed, tree, Forest.roots, List.countP_cons]
        rfl
      · rfl
    | instruction target data =>
      dsimp only
      rw [tree_framed, tree, Forest.roots, List.countP_cons]
      rfl

theorem countP_reread (ns : Namespaces) (f : Forest Kind) :
    (f.reread ns).roots.countP Kind.isElement = f.roots.countP Kind.isElement := by
  induction f with
  | nil => rfl
  | node kind inner next _ ih =>
    rw [Forest.roots, List.countP_cons, ← ih]
    cases kind with
    | text content =>
      rw [Forest.reread]
      split
      · rfl
      · exact List.countP_cons
    | _ => exact List.countP_cons

theorem hasElement_tree {f : Forest (NodeId × Kind)} (documents : ∀ x ∈ f.roots, x.2 ≠ .document)
    (before : Bool) :
    hasElement (((tree inclusive scope written (retain none comments (.outside before after)
      f)).reread ns).map fun kind => (Document.root, kind)) = hasElement f := by
  have counted (f : Forest (NodeId × Kind)) :
      hasElement f = decide (0 < f.roots.countP fun x => x.2.isElement) := by
    rw [Bool.eq_iff_iff, decide_eq_true_iff, List.countP_pos_iff, hasElement, List.any_eq_true]
  have labelled (f : Forest Kind) : ((f.map fun kind => (Document.root, kind)).roots.countP
      fun x => x.2.isElement) = f.roots.countP Kind.isElement := by
    rw [Forest.roots_map, List.countP_map]
    rfl
  rw [counted, counted, labelled, countP_reread, countP_tree documents]

theorem pieces_comment (before : Bool) (content : String) (f : Forest Kind) :
    pieces true (.outside before false) (.node (.comment content) .nil f) =
      framed (.outside before false) (.comment content) (f.map fun kind => (Document.root, kind))
        (pieces true (.outside before false) f) := by
  simp only [pieces, Forest.map, retain, Place.next, Kind.isElement, Bool.or_false, if_true,
    reduceCtorEq, if_false]

theorem pieces_instruction (before : Bool) (target : String) (data : Option String)
    (f : Forest Kind) :
    pieces comments (.outside before false) (.node (.instruction target data) .nil f) =
      framed (.outside before false) (.instruction target data)
        (f.map fun kind => (Document.root, kind)) (pieces comments (.outside before false) f) := by
  simp only [pieces, Forest.map, retain, Place.next, Kind.isElement, Bool.or_false, reduceCtorEq,
    if_false]

theorem write_framed_plainData (target : String) (data : Option String) :
    write (render inclusive scope written (framed (.outside before after)
      (.instruction target (plainData data)) siblings rest)) =
    write (render inclusive scope written (framed (.outside before after)
      (.instruction target data) siblings rest)) := by
  simp only [framed]
  split <;> split <;> simp only [render, write, writeData_plainData]

/-- What is written outside the document element is what was read there. -/
theorem rerender_outside {f : Forest (NodeId × Kind)} (documents : ∀ x ∈ f.roots, x.2 ≠ .document)
    {before : Bool}
    (h : Printable comments true [] (retain none comments (.outside before false) f)) :
    write (render inclusive [] [] (pieces comments (.outside before false)
      ((tree inclusive [] [] (retain none comments (.outside before false) f)).reread []))) =
        write (render inclusive [] [] (retain none comments (.outside before false) f)) := by
  induction f generalizing before with
  | nil => rfl
  | node label inner next _ ih =>
    obtain ⟨id, kind⟩ := label
    obtain ⟨here, later⟩ := List.forall_mem_cons.1 documents
    rw [Document.retain_node, if_neg (Option.some_ne_none _).symm] at h ⊢
    cases kind with
    | document => exact absurd rfl here
    | element e =>
      cases h with
      | element writable _ hi hn =>
        have start : Restated [] [] [] [] :=
          .start .nil .nil .nil
        exact rerender_element writable start rfl
          (hi.rerender rfl (start.step writable.sound writable.fit rfl inclusive)) (ih later hn)
    | text content =>
      rw [Document.next_of_not_isElement rfl] at h ⊢
      exact ih later h
    | comment content =>
      have leaf (e : Element) : (.comment content : Piece Element) ≠ .element e := by simp
      rw [Document.next_of_not_isElement rfl] at h ⊢
      cases comments with
      | false => exact ih later h
      | true =>
        have shape : (tree inclusive [] [] (.node (.comment content) .nil
            (retain none true (.outside before false) next))).reread [] = .node (.comment content) .nil
              ((tree inclusive [] [] (retain none true (.outside before false) next)).reread []) := rfl
        dsimp only
        rw [if_pos rfl, tree_framed, shape, pieces_comment]
        exact write_render_framed leaf (hasElement_tree later before)
          (ih later (of_printable_framed h))
    | instruction target data =>
      have leaf (e : Element) : (.instruction target data : Piece Element) ≠ .element e := by simp
      have shape : (tree inclusive [] [] (.node (.instruction target data) .nil
          (retain none comments (.outside before false) next))).reread [] =
            .node (.instruction target (plainData data)) .nil ((tree inclusive [] []
              (retain none comments (.outside before false) next)).reread []) := rfl
      rw [Document.next_of_not_isElement rfl] at h ⊢
      dsimp only
      rw [tree_framed, shape, pieces_instruction, write_framed_plainData]
      exact write_render_framed leaf (hasElement_tree later before)
        (ih later (of_printable_framed h))

end Outside

end SamlSeal.Canonical

namespace SamlSeal.Xml.Document

open Canonical

variable {d : Document}

/-! ### Pieces of documents -/

theorem Fit.scopeAround (hd : d.Fit) (linked : d.Linked) (id : NodeId) :
    Namespaces.Fit (d.scopeAround id) :=
  (scope_induction linked .nil
    (fun _ _ _ he around => around.declare (hd.element linked he).declarations) id).1

/-- What is retained of some nodes below an element can be read again. -/
theorem printable_retain (hd : ∀ x k, x ≠ root → d.kind? x = some k → k.Writable) (linked : d.Linked)
    {apex : NodeId} (consistent : d.ConsistentBelow apex) (comments : Bool) {scope : Scope}
    {ids : List NodeId} {f : Forest (NodeId × Kind)} (hf : d.Shows ids f)
    (below : ∀ a ∈ ids, d.Below apex a ∧ a ≠ root ∧ d.scopeAround a = scope) :
    Printable comments false scope (retain none comments .inside f) := by
  induction hf generalizing scope with
  | nil => exact .nil
  | @node id kind ids inner next hk hi hn ihInner ihNext =>
    obtain ⟨⟨hid, notRoot, hscope⟩, later⟩ := List.forall_mem_cons.1 below
    have rest := ihNext later
    have writable := hd id kind notRoot hk
    rw [retain_node, if_neg (Option.some_ne_none _).symm]
    cases kind with
    | document => exact writable.sound.elim
    | element e =>
      have he : d.element? id = some e := element?_of_kind? hk
      have inside : d.scopeAt id = scope.declare e.declarations := by
        rw [scopeAt_of_element linked he, hscope]
      refine .element writable (inside ▸ consistent id hid e he) (ihInner fun c hc => ?_) rest
      exact ⟨hid.child linked hc, linked.child_ne_root hc, by
        rw [scopeAround_of_parent (linked.mem_children_iff.1 hc), inside]⟩
    | text content => exact .text writable rest
    | comment content =>
      cases comments with
      | false => exact rest
      | true => exact .comment rfl writable rest
    | instruction target data => exact .instruction writable rest

/-- What is retained of the nodes of a document can be read again, if there is one document element:
before it line breaks come after, and behind it they come before. -/
theorem printable_outside (hd : ∀ x k, x ≠ root → d.kind? x = some k → k.Writable)
    (linked : d.Linked) (consistent : d.ConsistentBelow root) (comments : Bool) {ids : List NodeId}
    {f : Forest (NodeId × Kind)} (hf : d.Shows ids f) (top : ∀ a ∈ ids, a ∈ d.children root)
    {before : Bool} (single : (f.roots.countP fun x => x.2.isElement) ≤ 1)
    (behind : before = true → hasElement f = false) :
    Printable comments true [] (retain none comments (.outside before false) f) := by
  induction hf generalizing before with
  | nil => exact .nil
  | @node id kind ids inner next hk hi hn ihInner ihNext =>
    obtain ⟨hid, later⟩ := List.forall_mem_cons.1 top
    have writable := hd id kind (linked.child_ne_root hid) hk
    have count : (next.roots.countP fun x => x.2.isElement) + (if kind.isElement then 1 else 0) ≤ 1 :=
      by simpa [Forest.roots, List.countP_cons] using single
    have fewer : (next.roots.countP fun x => x.2.isElement) ≤ 1 := Nat.le_of_add_right_le count
    have behind' : before = true → kind.isElement = false ∧ hasElement next = false := by
      simpa [hasElement, Forest.roots] using behind
    -- a node that is no element is framed by line breaks on the side of the element
    have rest : Printable comments true [] (retain none comments (.outside before false) next) :=
      ihNext later fewer fun after => (behind' after).2
    have apart : (hasElement next || false) = true → ∀ p ∈ (retain none comments
        (.outside before false) next).roots.head?, p ≠ .lineBreak := by
      intro element
      rw [Bool.or_false] at element
      obtain rfl : before = false := Bool.eq_false_iff.2 fun after =>
        absurd element (by simp [(behind' after).2])
      exact head_retain next
    rw [retain_node, if_neg (Option.some_ne_none _).symm]
    cases kind with
    | document => exact writable.sound.elim
    | element e =>
      have he : d.element? id = some e := element?_of_kind? hk
      have inside : d.scopeAt id = Scope.declare [] e.declarations := by
        rw [scopeAt_of_element linked he, scopeAround_of_mem_root linked hid]
      have below : d.Below root id := Below.refl.child linked hid
      have last : hasElement next = false := by
        have none : (next.roots.countP fun x => x.2.isElement) = 0 := by
          simpa [Kind.isElement] using count
        exact List.any_eq_false.2 (List.countP_eq_zero.1 none)
      refine .element writable (inside ▸ consistent id below e he) ?_
        (ihNext later fewer fun _ => last)
      exact printable_retain hd linked consistent comments hi fun c hc =>
        ⟨below.child linked hc, linked.child_ne_root hc, by
          rw [scopeAround_of_parent (linked.mem_children_iff.1 hc), inside]⟩
    | text content =>
      rw [next_of_not_isElement rfl]
      exact rest
    | comment content =>
      rw [next_of_not_isElement rfl]
      cases comments with
      | false => exact rest
      | true => exact printable_framed (.comment rfl writable) (by simp) apart rest
    | instruction target data =>
      rw [next_of_not_isElement rfl]
      exact printable_framed (.instruction writable) (by simp) apart rest

/-! ### Canonical forms that are read again -/

theorem parseBytes_utf8 (text : String) : parseBytes (utf8 text) = parse text := by
  have bytes : (⟨(utf8 text).toArray⟩ : ByteArray) = text.toUTF8 := by simp [utf8]
  have decoded : String.fromUTF8? text.toUTF8 = some text := dif_pos text.isValidUTF8
  rw [parseBytes, bytes, decoded]

/-- A canonical form is read as the tree that it writes. -/
theorem parse_canonical {comments : Bool} {scope : Scope} {f : Forest (Piece Element)}
    (h : Printable comments true scope f) (start : Restated scope [] [] []) (inclusive : List String)
    (single : (tree inclusive scope [] f).roots.countP Kind.isElement = 1) :
    parseBytes (utf8 (String.ofList (Canonical.write (render inclusive scope [] f)))) =
      .ok (ofForest ((tree inclusive scope [] f).reread [])) := by
  have stop : ∀ c ∈ ([] : List Char).head?, c = '<' := nofun
  obtain ⟨m, hm⟩ := h.spells start inclusive stop
  rw [List.append_nil] at hm
  rw [parseBytes_utf8]
  exact hm.parse (h.stands start inclusive) (hm.read? (.inl rfl) single)

/-- What is retained of a whole document. -/
theorem retained_root (linked : d.Linked) (comments : Bool) : d.retained root none comments =
    retain none comments (.outside false false) (d.view (d.children root)) := by
  have place : d.place root = .inside := by rw [place, linked.root_kind]
  rw [retained, place, view_singleton linked linked.root_kind, retain_node, if_neg (Option.some_ne_none _).symm]
  exact Forest.append_nil _

theorem scopeAround_root (linked : d.Linked) : d.scopeAround root = [] := by
  rw [scopeAround, linked.parent?_root]

theorem retained_of_element {x : NodeId} {e : Element} (he : d.element? x = some e)
    (comments : Bool) : d.retained x none comments = retain none comments .inside (d.view [x]) := by
  rw [retained, place, kind?_of_element? he]

/-- The canonical form of the document of a forest. -/
theorem canonical_ofForest (f : Forest Kind) (comments : Bool) (inclusive : List String) :
    (ofForest f).canonical root none comments inclusive = .ok (String.ofList (Canonical.write (render
      (inclusivePrefixes inclusive) [] [] (pieces comments (.outside false false) f)))) := by
  have linked := Linked.ofForest f
  refine canonical_eq_ok (by rw [linked.root_kind]; rfl) ?_
  rw [rendered, scopeAround_root linked, retained_root linked, view_ofForest, retain_eq_pieces,
    Forest.map_snd_number]

/-- The document element of a forest that is one element, and its canonical form. -/
theorem canonical_ofForest_element (e : Element) (inner : Forest Kind) (comments : Bool)
    (inclusive : List String) :
    (ofForest (.node (.element e) inner .nil)).rootElement? = some 1 ∧
      (ofForest (.node (.element e) inner .nil)).canonical 1 none comments inclusive =
        .ok (String.ofList (Canonical.write (render (inclusivePrefixes inclusive) [] []
          (pieces comments .inside (.node (.element e) inner .nil))))) := by
  have linked := Linked.ofForest (.node (.element e) inner .nil)
  have hk : (ofForest (.node (.element e) inner .nil)).kind? 1 = some (.element e) :=
    kind?_ofForest _ 0
  have he : (ofForest (.node (.element e) inner .nil)).element? 1 = some e := element?_of_kind? hk
  obtain ⟨top, only⟩ := rootElement?_ofForest e inner
  constructor
  · exact top
  · refine canonical_eq_ok (by rw [hk]; rfl) ?_
    rw [rendered, scopeAround_of_mem_root linked (only ▸ List.mem_singleton_self 1),
      retained_of_element he, ← only, view_ofForest, retain_eq_pieces, Forest.map_snd_number]

section Apex

variable (linked : d.Linked) (writable : ∀ x k, x ≠ root → d.kind? x = some k → k.Writable)
  (comments : Bool) (inclusive : List String)

include linked writable

/-- The form of a whole document is read as a document that has it. -/
theorem fixpoint_of_document (tidy : d.Tidy) (consistent : d.ConsistentBelow root) :
    ∃ c d', d.canonical root none comments inclusive = .ok c ∧ parseBytes (utf8 c) = .ok d' ∧
      d'.canonical root none comments inclusive = .ok c := by
  have shown := shows_children linked root
  have documents : ∀ x ∈ (d.view (d.children root)).roots, x.2 ≠ .document := by
    intro x hx
    have mem : some x.2 ∈ ((d.view (d.children root)).map Prod.snd).roots.map some := by
      rw [Forest.roots_map, List.map_map]
      exact List.mem_map_of_mem hx
    rw [← shown.map_kind?] at mem
    obtain ⟨c, hc, hk⟩ := List.mem_map.1 mem
    intro document
    have := (writable c x.2 (linked.child_ne_root hc) hk).sound
    rw [document] at this
    exact this
  have single : ((d.view (d.children root)).roots.countP fun x => x.2.isElement) = 1 := by
    have count := tidy.countP_view linked
    rw [Forest.roots_map, List.countP_map] at count
    exact count
  have printable : Printable comments true []
      (retain none comments (.outside false false) (d.view (d.children root))) :=
    printable_outside writable linked consistent comments shown (fun _ => id)
      (Nat.le_of_eq single) nofun
  have form : Canonical.write (d.rendered root none comments inclusive) = Canonical.write (render
      (inclusivePrefixes inclusive) [] []
        (retain none comments (.outside false false) (d.view (d.children root)))) := by
    rw [rendered, scopeAround_root linked, retained_root linked]
  refine ⟨_, _, canonical_eq_ok (by rw [linked.root_kind]; rfl) form, parse_canonical printable
    (.start .nil .nil .nil) _ ((countP_tree documents false).trans single), ?_⟩
  rw [canonical_ofForest, rerender_outside documents printable]

/-- The form of an element is read as a document that has this element only, in other bindings. -/
theorem fixpoint_of_element (sound : d.Sound) (fit : d.Fit) {apex : NodeId} {e : Element}
    (he : d.element? apex = some e) (consistent : d.ConsistentBelow apex) :
    ∃ c d' apex', d.canonical apex none comments inclusive = .ok c ∧ parseBytes (utf8 c) = .ok d' ∧
      d'.rootElement? = some apex' ∧ d'.canonical apex' none comments inclusive = .ok c := by
  have hk := kind?_of_element? he
  have start : Restated (d.scopeAround apex) [] [] [] :=
    .start (proper_scope linked apex).1 (sound.scope linked apex).1 (fit.scopeAround linked apex)
  have below : ∀ a ∈ [apex], d.Below apex a ∧ a ≠ root ∧ d.scopeAround a = d.scopeAround apex := by
    intro a ha
    rw [List.mem_singleton.1 ha]
    exact ⟨.refl, linked.ne_root he, rfl⟩
  have printable := printable_retain writable linked consistent comments
    (shows_singleton linked hk) below
  have shape : retain none comments .inside (d.view [apex]) = .node (.element e)
      (retain none comments .inside (d.view (d.children apex))) .nil := by
    rw [view_singleton linked hk, retain_node, if_neg (Option.some_ne_none _).symm]
    rfl
  rw [shape] at printable
  -- an element that is alone can as well stand outside
  have alone : Printable comments true (d.scopeAround apex) (.node (.element e)
      (retain none comments .inside (d.view (d.children apex))) .nil) := by
    cases printable with
    | element writable consistent inner _ => exact .element writable consistent inner .nil
  have form : Canonical.write (d.rendered apex none comments inclusive) = Canonical.write (render
      (inclusivePrefixes inclusive) (d.scopeAround apex) [] (.node (.element e)
        (retain none comments .inside (d.view (d.children apex))) .nil)) := by
    rw [rendered, retained_of_element he, shape]
  obtain ⟨top, again⟩ := canonical_ofForest_element
    ((canonized (inclusivePrefixes inclusive) ((d.scopeAround apex).declare e.declarations) []
      e).reread []) _ comments inclusive
  refine ⟨_, _, 1, canonical_eq_ok (by rw [hk]; rfl) form, parse_canonical alone start _ rfl, top,
    again.trans ?_⟩
  exact congrArg (Except.ok ∘ String.ofList) (printable.rerender rfl start)

end Apex

/-- Canonical form is a fixpoint: it is the text of a document, and the document element of that
document, or the document itself, has the same canonical form again. -/
theorem canonical_fixpoint {text : String} (h : parse text = .ok d) (plain : d.Plain)
    {apex : NodeId} (consistent : d.ConsistentBelow apex)
    (node : apex = root ∨ ∃ e, d.element? apex = some e) (comments : Bool)
    (inclusive : List String) :
    ∃ c d' apex', d.canonical apex none comments inclusive = .ok c ∧
      parseBytes (utf8 c) = .ok d' ∧
      (apex = root ∧ apex' = root ∨ apex ≠ root ∧ d'.rootElement? = some apex') ∧
      d'.canonical apex' none comments inclusive = .ok c := by
  have linked := (Reachable.parse h).linked
  have sound := Sound.parse h
  have fit := Fit.parse h
  have writable : ∀ x k, x ≠ root → d.kind? x = some k → k.Writable := fun x k ne hk =>
    ⟨sound x k ne hk, fit x k ne hk, plain x k hk⟩
  rcases node with rfl | ⟨e, he⟩
  · obtain ⟨c, d', form, read, again⟩ :=
      fixpoint_of_document linked writable comments inclusive (.parse h) consistent
    exact ⟨c, d', root, form, read, .inl ⟨rfl, rfl⟩, again⟩
  · obtain ⟨c, d', apex', form, read, top, again⟩ :=
      fixpoint_of_element linked writable comments inclusive sound fit he consistent
    exact ⟨c, d', apex', form, read, .inr ⟨linked.ne_root he, top⟩, again⟩

/-- A document with something before and after its document element. -/
def annotated : Document := ofForest
  (.node (.comment "c") .nil
    (.node (.element ⟨⟨some "p", "a", some "urn:p"⟩,
        [⟨⟨some "p", "x", some "urn:p"⟩, "1"⟩, ⟨⟨none, "y", none⟩, "2"⟩],
        [⟨"", "urn:d"⟩, ⟨"p", "urn:p"⟩]⟩)
      (.node (.text "t>") .nil (.node (.element ⟨⟨none, "b", some ""⟩, [], [⟨"", ""⟩]⟩) .nil .nil))
      (.node (.instruction "i" (some "d")) .nil .nil)))

theorem canonical_fixpoint_annotated :
    parse ("<!--c-->\n<p:a xmlns:p='urn:p' p:x='1' xmlns='urn:d' y='2'>t><b xmlns=''/></p:a>" ++
      "<?i  d?>") = .ok annotated ∧
    annotated.ConsistentBelow root ∧ annotated.Plain ∧
    ∃ c d', annotated.canonical root none true ["#default"] = .ok c ∧
      c = "<!--c-->\n<p:a xmlns=\"urn:d\" xmlns:p=\"urn:p\" y=\"2\" p:x=\"1\">t&gt;" ++
        "<b xmlns=\"\"></b></p:a>\n<?i d?>" ∧
      parseBytes (utf8 c) = .ok d' ∧ d'.canonical root none true ["#default"] = .ok c := by
  have read : parse ("<!--c-->\n<p:a xmlns:p='urn:p' p:x='1' xmlns='urn:d' y='2'>t>" ++
      "<b xmlns=''/></p:a><?i  d?>") = .ok annotated := parse_eq_ok (by decide +kernel)
  have consistent : annotated.ConsistentBelow root := consistentBelow_of_rows (by decide +kernel) _
  have plain : annotated.Plain := plain_of_rows (by decide +kernel)
  obtain ⟨c, d', apex', form, accepted, top, again⟩ :=
    canonical_fixpoint read plain consistent (.inl rfl) true ["#default"]
  obtain rfl : apex' = root := top.elim And.right fun h => absurd rfl h.1
  have computed : annotated.canonical root none true ["#default"] = _ := canonical_eq_ok rfl rfl
  refine ⟨read, consistent, plain, c, d', form, ?_, accepted, again⟩
  exact (Except.ok.inj (form.symm.trans computed)).trans (by decide +kernel)

/-- An attribute with the prefix `xmlns` is gone when its canonical form is read again. -/
theorem canonical_not_fixpoint :
    parse "<a xmlns:xmlns='urn:u' xmlns:z='urn:u' z:xmlns='urn:d' z:z='v'/>" = .ok disguised ∧
    disguised.ConsistentBelow root ∧
    disguised.canonical 1 none false [] =
      .ok "<a xmlns=\"urn:d\" xmlns:xmlns=\"urn:u\" xmlns:z=\"v\"></a>" ∧
    parseBytes (utf8 "<a xmlns=\"urn:d\" xmlns:xmlns=\"urn:u\" xmlns:z=\"v\"></a>") = .ok declared ∧
    declared.rootElement? = some 1 ∧
    declared.canonical 1 none false [] = .ok "<a xmlns=\"urn:d\"></a>" := by
  refine ⟨parse_eq_ok (by decide +kernel), consistentBelow_of_rows (by decide +kernel) _,
    congrArg Except.ok (by decide +kernel), ?_, rfl, congrArg Except.ok (by decide +kernel)⟩
  rw [parseBytes_utf8]
  exact parse_eq_ok (by decide +kernel)

end SamlSeal.Xml.Document
