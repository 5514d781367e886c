import Mathlib.Data.List.Forall2
import SamlSeal.Proofs.Rendering

/-!
# Documents that are alike

Two documents can hold the same tree at different positions of their tables.  `Forest.Alike` says
what it means that they do: empty texts may be missing in the second document, and an empty prefix
or an empty namespace may be none there.  Everything else is the same.

* `Document.Matched`: which nodes of the two documents correspond,
* `Document.MirrorsBelow`: a correspondence that keeps kinds and children.  One lemma says for each
  question about a node and what is below it that its answers correspond,
* `Document.Mirrors`: a correspondence that keeps parents too,
* `Mirrors.canonical_eq`: alike documents have the same canonical forms.
-/

namespace SamlSeal.Xml

open Canonical

/-! ### Trees that are alike -/

/-- Two elements are the same but for an empty prefix or namespace that is none in the second
one. -/
structure Element.Alike (e e' : Element) : Prop where
  pfx : elementPfx e' = elementPfx e
  localName : e'.name.localName = e.name.localName
  uri : e'.name.uri = e.name.uri ∨ e.name.uri = some "" ∧ e'.name.uri = none
  attributes : e'.attributes = e.attributes
  declarations : e'.declarations = e.declarations

inductive Kind.Alike : Kind → Kind → Prop
  | element {e e' : Element} (h : e.Alike e') : Alike (.element e) (.element e')
  | other {k : Kind} (h : k.isElement = false) : Alike k k

/-- Two trees are the same but for empty texts, which are missing in the second one, and for empty
prefixes and namespaces. -/
inductive Forest.Alike : Forest Kind → Forest Kind → Prop
  | nil : Alike .nil .nil
  | empty {inner next g : Forest Kind} (hn : Alike next g) :
    Alike (.node (.text "") inner next) g
  | node {k k' : Kind} {inner next inner' next' : Forest Kind} (ne : k ≠ .text "")
    (hk : k.Alike k') (hi : Alike inner inner') (hn : Alike next next') :
    Alike (.node k inner next) (.node k' inner' next')

theorem Kind.Alike.refl : (k : Kind) → k.Alike k
  | .element _ => .element ⟨rfl, rfl, .inl rfl, rfl, rfl⟩
  | .document | .text _ | .comment _ | .instruction .. => .other rfl

theorem Kind.Alike.isElement {k k' : Kind} (h : k.Alike k') : k'.isElement = k.isElement := by
  cases h <;> rfl

/-- An empty prefix is written as none. -/
theorem QName.qualified_congr {q q' : QName} (pfx : q'.pfx.getD "" = q.pfx.getD "")
    (localName : q'.localName = q.localName) : q'.qualified = q.qualified := by
  have whole (q : QName) : q.qualified =
      if q.pfx.getD "" = "" then q.localName else q.pfx.getD "" ++ ":" ++ q.localName := by
    rw [QName.qualified]
    cases q.pfx <;> rfl
  rw [whole, whole, pfx, localName]

/-- Two elements that are alike have the same start tag. -/
theorem Element.Alike.ofElement {e e' : Element} (h : e.Alike e') (inclusive : List String)
    (scope written : Scope) : Opening.ofElement inclusive scope written e' =
      Opening.ofElement inclusive scope written e := by
  rw [Opening.ofElement, Opening.ofElement, QName.qualified_congr h.pfx h.localName,
    Canonical.rendered, Canonical.rendered, utilized, utilized, h.pfx, h.attributes,
    sortedAttributes, sortedAttributes, h.attributes]

end SamlSeal.Xml

namespace SamlSeal.Canonical

open Xml

/-! ### What is written of pieces -/

theorem write_append (f g : Forest (Piece Opening)) : write (f ++ g) = write f ++ write g := by
  induction f with
  | nil => rfl
  | node piece inner next _ ih =>
    rw [Forest.node_append]
    cases piece <;> simp only [write, ih, List.append_assoc]

section Pieces

variable {inclusive : List String} {scope written : Scope} {piece : Piece Element}
  {rest rest' : Forest (Piece Element)}

theorem write_render_leaf (leaf : ∀ e, piece ≠ .element e)
    (same : write (render inclusive scope written rest') =
      write (render inclusive scope written rest)) :
    write (render inclusive scope written (.node piece .nil rest')) =
      write (render inclusive scope written (.node piece .nil rest)) := by
  cases piece with
  | element e => exact absurd rfl (leaf e)
  | _ => simp only [render, write, same]

theorem write_render_framed (leaf : ∀ e, piece ≠ .element e) {place : Place}
    {siblings siblings' : Forest (NodeId × Kind)}
    (elements : hasElement siblings' = hasElement siblings)
    (same : write (render inclusive scope written rest') =
      write (render inclusive scope written rest)) :
    write (render inclusive scope written (framed place piece siblings' rest')) =
      write (render inclusive scope written (framed place piece siblings rest)) := by
  have lineBreak (e : Element) : (.lineBreak : Piece Element) ≠ .element e := nofun
  cases place with
  | inside => exact write_render_leaf leaf same
  | outside before after =>
    simp only [framed, elements]
    split <;> split
    · exact write_render_leaf lineBreak (write_render_leaf leaf (write_render_leaf lineBreak same))
    · exact write_render_leaf lineBreak (write_render_leaf leaf same)
    · exact write_render_leaf leaf (write_render_leaf lineBreak same)
    · exact write_render_leaf leaf same

end Pieces

end SamlSeal.Canonical

namespace SamlSeal.Xml

open Canonical

namespace Document

variable {d d' : Document}

/-- The nodes of a list that are no empty texts. -/
def shown (d : Document) (ids : List NodeId) : List NodeId :=
  ids.filter fun id => d.kind? id != some (.text "")

/-- Nodes of two documents that stand at the same place of the tree: both stand for the whole
document, or they have the same place among the children of nodes that correspond.  Empty texts of
the first document are not counted. -/
inductive Matched (d d' : Document) : NodeId → NodeId → Prop
  | top : Matched d d' root root
  | child {a b x y : NodeId} {i : Nat} (h : Matched d d' a b)
    (hx : (d.shown (d.children a))[i]? = some x) (hy : (d'.children b)[i]? = some y) :
    Matched d d' x y

/-- Nodes of two documents correspond in a way that keeps kinds and children, empty texts aside. -/
structure MirrorsBelow (d d' : Document) (R : NodeId → NodeId → Prop) : Prop where
  kind : ∀ {a b}, R a b → ∃ k k', d.kind? a = some k ∧ d'.kind? b = some k' ∧ k.Alike k'
  children : ∀ {a b}, R a b →
    List.Forall₂ R (d.shown (d.children a)) (d'.shown (d'.children b))

/-- Nodes of two documents correspond in a way that keeps kinds, children and parents. -/
structure Mirrors (d d' : Document) (R : NodeId → NodeId → Prop) : Prop where
  kind : ∀ {a b}, R a b → ∃ k k', d.kind? a = some k ∧ d'.kind? b = some k' ∧ k.Alike k' ∧
    k ≠ .text ""
  children : ∀ {a b}, R a b → List.Forall₂ R (d.shown (d.children a)) (d'.children b)
  parent : ∀ {a b}, R a b → d.parent? a = none ∧ d'.parent? b = none ∨
    ∃ p q, d.parent? a = some p ∧ d'.parent? b = some q ∧ R p q
  inj : ∀ {a b a' b'}, R a b → R a' b' → (a = a' ↔ b = b')
  top : R root root

/-! ### Alike documents mirror each other -/

/-- Two nodes have the same kind, and alike trees are inside them. -/
def SameBelowHere (d d' : Document) (a b : NodeId) : Prop :=
  ∃ k k', d.kind? a = some k ∧ d'.kind? b = some k' ∧ k.Alike k' ∧ k ≠ .text "" ∧
    ∃ f g, d.Shows (d.children a) f ∧ d'.Shows (d'.children b) g ∧
      (f.map Prod.snd).Alike (g.map Prod.snd)

theorem rel_of_getElem? {α β : Type} {R : α → β → Prop} {as : List α} {bs : List β}
    (h : List.Forall₂ R as bs) {i : Nat} {a : α} {b : β} (ha : as[i]? = some a)
    (hb : bs[i]? = some b) : R a b := by
  obtain ⟨lt, rfl⟩ := List.getElem?_eq_some_iff.1 ha
  obtain ⟨lt', rfl⟩ := List.getElem?_eq_some_iff.1 hb
  exact h.get lt lt'

theorem forall₂_filter {α β : Type} {R : α → β → Prop} {p : α → Bool} {q : β → Bool} {as : List α}
    {bs : List β} (h : List.Forall₂ R as bs) (same : ∀ {a b}, R a b → q b = p a) :
    List.Forall₂ R (as.filter p) (bs.filter q) := by
  induction h with
  | nil => exact .nil
  | cons hab _ ih =>
    rw [List.filter_cons, List.filter_cons, same hab]
    split
    · exact .cons hab ih
    · exact ih

theorem rel_head? {α β : Type} {R : α → β → Prop} {as : List α} {bs : List β}
    (h : List.Forall₂ R as bs) : Option.Rel R as.head? bs.head? := by
  cases h with
  | nil => exact .none
  | cons hab _ => exact .some hab

theorem rel_find? {α β : Type} {R : α → β → Prop} {p : α → Bool} {q : β → Bool} {as : List α}
    {bs : List β} (h : List.Forall₂ R as bs) (same : ∀ {a b}, R a b → q b = p a) :
    Option.Rel R (as.find? p) (bs.find? q) := by
  rw [← List.head?_filter, ← List.head?_filter]
  exact rel_head? (forall₂_filter h same)

theorem rel_cases {α β : Type} {R : α → β → Prop} {x : Option α} {y : Option β}
    (h : Option.Rel R x y) : x = none ∧ y = none ∨ ∃ a b, x = some a ∧ y = some b ∧ R a b := by
  cases h with
  | none => exact .inl ⟨rfl, rfl⟩
  | some hab => exact .inr ⟨_, _, rfl, rfl, hab⟩

theorem rel_imp {α β : Type} {R S : α → β → Prop} {x : Option α} {y : Option β}
    (h : Option.Rel R x y) (next : ∀ {a b}, R a b → S a b) : Option.Rel S x y := by
  cases h with
  | none => exact .none
  | some hab => exact .some (next hab)

theorem flatMap_eq_of_forall₂ {α β γ : Type} {R : α → β → Prop} {f : α → List γ} {g : β → List γ}
    {as : List α} {bs : List β} (h : List.Forall₂ R as bs) (same : ∀ {a b}, R a b → g b = f a) :
    bs.flatMap g = as.flatMap f := by
  induction h with
  | nil => rfl
  | cons hab _ ih => rw [List.flatMap_cons, List.flatMap_cons, same hab, ih]

theorem forall₂_shown {ids ids' : List NodeId} {f g : Forest (NodeId × Kind)}
    (hf : d.Shows ids f) (hg : d'.Shows ids' g) (alike : (f.map Prod.snd).Alike (g.map Prod.snd)) :
    List.Forall₂ (SameBelowHere d d') (d.shown ids) ids' := by
  induction hf generalizing ids' g with
  | nil =>
    cases hg with
    | nil => exact .nil
    | node => cases alike
  | @node id kind ids inner next hk hi hn ihInner ihNext =>
    rw [shown, List.filter_cons, hk]
    generalize eq : g.map Prod.snd = g' at alike
    cases alike with
    | empty alike =>
      subst eq
      rw [if_neg (by simp)]
      exact ihNext hg alike
    | node ne hkind alikeInner alikeNext =>
      rw [if_pos (by simpa using ne)]
      cases hg with
      | nil => cases eq
      | node hk' hi' hn' =>
        obtain ⟨rfl, rfl, rfl⟩ := Forest.node.inj eq
        exact .cons ⟨_, _, hk, hk', hkind, ne, _, _, hi, hi', alikeInner⟩ (ihNext hn' alikeNext)

theorem Matched.sameBelowHere (linked : d.Linked) (linked' : d'.Linked)
    (alike : ((d.view (d.children root)).map Prod.snd).Alike
      ((d'.view (d'.children root)).map Prod.snd)) {a b : NodeId} (h : d.Matched d' a b) :
    SameBelowHere d d' a b := by
  induction h with
  | top =>
    exact ⟨_, _, linked.root_kind, linked'.root_kind, .other rfl, nofun, _, _,
      shows_children linked root, shows_children linked' root, alike⟩
  | child _ hx hy ih =>
    obtain ⟨-, -, -, -, -, -, f, g, hf, hg, inside⟩ := ih
    exact rel_of_getElem? (forall₂_shown hf hg inside) hx hy

theorem nodup_shown (linked : d.Linked) (p : NodeId) : (d.shown (d.children p)).Nodup :=
  (linked.nodup_children p).filter _

theorem mem_children_of_shown {p x : NodeId} {i : Nat}
    (h : (d.shown (d.children p))[i]? = some x) : x ∈ d.children p :=
  (List.mem_filter.1 (List.mem_of_getElem? h)).1

/-- A node corresponds to one node only. -/
theorem Matched.inj (linked : d.Linked) (linked' : d'.Linked) {a b a' b' : NodeId}
    (h : d.Matched d' a b) (h' : d.Matched d' a' b') : a = a' ↔ b = b' := by
  induction h generalizing a' b' with
  | top =>
    cases h' with
    | top => exact ⟨fun _ => rfl, fun _ => rfl⟩
    | child _ hx hy =>
      exact ⟨fun eq => absurd eq.symm (linked.child_ne_root (mem_children_of_shown hx)),
        fun eq => absurd eq.symm (linked'.child_ne_root (List.mem_of_getElem? hy))⟩
  | child h hx hy ih =>
    have up := linked.mem_children_iff.1 (mem_children_of_shown hx)
    have up' := linked'.mem_children_iff.1 (List.mem_of_getElem? hy)
    cases h' with
    | top =>
      exact ⟨fun eq => absurd eq (linked.child_ne_root (mem_children_of_shown hx)),
        fun eq => absurd eq (linked'.child_ne_root (List.mem_of_getElem? hy))⟩
    | child h₁ hx₁ hy₁ =>
      have up₁ := linked.mem_children_iff.1 (mem_children_of_shown hx₁)
      have up₁' := linked'.mem_children_iff.1 (List.mem_of_getElem? hy₁)
      constructor
      · -- the same child has one parent and one place
        rintro rfl
        obtain rfl := Option.some.inj (up.symm.trans up₁)
        obtain rfl := (ih h₁).1 rfl
        obtain rfl := (List.getElem?_inj (List.getElem?_eq_some_iff.1 hx).1
          (nodup_shown linked _)).1 (hx.trans hx₁.symm)
        exact Option.some.inj (hy.symm.trans hy₁)
      · rintro rfl
        obtain rfl := Option.some.inj (up'.symm.trans up₁')
        obtain rfl := (ih h₁).2 rfl
        obtain rfl := (List.getElem?_inj (List.getElem?_eq_some_iff.1 hy).1
          (linked'.nodup_children _)).1 (hy.trans hy₁.symm)
        exact Option.some.inj (hx.symm.trans hx₁)

/-- Alike documents mirror each other. -/
theorem Mirrors.of_alike (linked : d.Linked) (linked' : d'.Linked)
    (alike : ((d.view (d.children root)).map Prod.snd).Alike
      ((d'.view (d'.children root)).map Prod.snd)) : Mirrors d d' (d.Matched d') where
  kind h := by
    obtain ⟨k, k', hk, hk', hkind, ne, -⟩ := h.sameBelowHere linked linked' alike
    exact ⟨k, k', hk, hk', hkind, ne⟩
  children {a b} h := by
    obtain ⟨-, -, -, -, -, -, f, g, hf, hg, inside⟩ := h.sameBelowHere linked linked' alike
    have same := (forall₂_shown hf hg inside).length_eq
    refine List.forall₂_iff_get.2 ⟨same, fun i hx hy => ?_⟩
    exact h.child (List.getElem?_eq_getElem hx) (List.getElem?_eq_getElem hy)
  parent h := by
    cases h with
    | top => exact .inl ⟨linked.parent?_root, linked'.parent?_root⟩
    | child h hx hy =>
      exact .inr ⟨_, _, linked.mem_children_iff.1 (mem_children_of_shown hx),
        linked'.mem_children_iff.1 (List.mem_of_getElem? hy), h⟩
  inj h h' := h.inj linked linked' h'
  top := .top

/-- Two forests hold nodes that correspond.  Empty texts of the first one have nothing that they
correspond to. -/
inductive Corresponds (R : NodeId → NodeId → Prop) :
    Forest (NodeId × Kind) → Forest (NodeId × Kind) → Prop
  | nil : Corresponds R .nil .nil
  | empty {id : NodeId} {inner next g : Forest (NodeId × Kind)} (hn : Corresponds R next g) :
    Corresponds R (.node (id, .text "") inner next) g
  | node {a b : NodeId} {k k' : Kind} {inner next inner' next' : Forest (NodeId × Kind)}
    (hab : R a b) (alike : k.Alike k') (hi : Corresponds R inner inner')
    (hn : Corresponds R next next') : Corresponds R (.node (a, k) inner next) (.node (b, k') inner' next')

theorem Corresponds.hasElement {R : NodeId → NodeId → Prop} {f g : Forest (NodeId × Kind)}
    (h : Corresponds R f g) : Canonical.hasElement g = Canonical.hasElement f := by
  induction h with
  | nil => rfl
  | empty _ ih => exact ih
  | node _ alike _ _ _ ihNext =>
    simp only [Canonical.hasElement, Forest.roots, List.any_cons] at ihNext ⊢
    rw [ihNext, alike.isElement]

/-- What is written of nodes that correspond is the same. -/
theorem Corresponds.write_retain {R : NodeId → NodeId → Prop} {f g : Forest (NodeId × Kind)} (h : Corresponds R f g)
    {excluded excluded' : Option NodeId}
    (same : ∀ {x y}, R x y → (excluded' = some y ↔ excluded = some x)) (comments : Bool)
    (inclusive : List String) (place : Place) (scope written : Scope) :
    Canonical.write (render inclusive scope written (retain excluded' comments place g)) =
      Canonical.write (render inclusive scope written (retain excluded comments place f)) := by
  induction h generalizing place scope written with
  | nil => rfl
  | @empty id inner next g _ ih =>
    rw [retain_node, next_of_not_isElement rfl]
    split
    · exact ih place scope written
    · dsimp only
      split
      · exact ih place scope written
      · exact ih place scope written
  | @node a b k k' inner next inner' next' hab alike hi hn ihInner ihNext =>
    have stays : place.next k' = place.next k := by
      cases place <;> simp only [Place.next, alike.isElement]
    have rest := ihNext (place.next k) scope written
    rw [retain_node, retain_node, stays]
    by_cases out : excluded = some a
    · rw [if_pos out, if_pos ((same hab).2 out)]
      exact rest
    rw [if_neg out, if_neg fun out' => out ((same hab).1 out')]
    cases alike with
    | element alike =>
      simp only [render, Canonical.write, alike.declarations, alike.ofElement, ihInner, rest]
    | other notElement =>
      cases k with
      | element => cases notElement
      | document =>
        simp only [render_append, write_append, ihInner, rest]
      | text content =>
        dsimp only
        split
        · exact write_render_leaf (by simp) rest
        · exact rest
      | comment content =>
        dsimp only
        split
        · exact write_render_framed (by simp) hn.hasElement rest
        · exact rest
      | instruction target data => exact write_render_framed (by simp) hn.hasElement rest

/-! ### Questions about a node and what is below it -/

theorem isElement_of_isNamed {uri localName : String} {x : NodeId}
    (h : d.isNamed uri localName x = true) : d.isElement x = true := by
  rw [isNamed] at h
  split at h
  · next e he => exact isElement_iff.2 ⟨e, he⟩
  · cases h

/-- No test for elements is passed by an empty text. -/
theorem filter_shown {test : NodeId → Bool} (elements : ∀ {x}, test x = true → d.isElement x = true)
    (ids : List NodeId) : (d.shown ids).filter test = ids.filter test := by
  rw [shown, List.filter_filter]
  refine List.filter_congr fun x _ => ?_
  cases passes : test x with
  | false => rfl
  | true =>
    obtain ⟨e, he⟩ := isElement_iff.1 (elements passes)
    rw [kind?_of_element? he]
    simp

/-- Empty texts add nothing. -/
theorem flatMap_shown {γ : Type} {f : NodeId → List γ}
    (empty : ∀ {x}, d.kind? x = some (.text "") → f x = []) (ids : List NodeId) :
    (d.shown ids).flatMap f = ids.flatMap f := by
  induction ids with
  | nil => rfl
  | cons x ids ih =>
    rw [shown, List.filter_cons, List.flatMap_cons, ← ih]
    by_cases hx : d.kind? x = some (.text "")
    · rw [if_neg (by simp [hx]), empty hx]
      rfl
    · rw [if_pos (by simpa using hx), List.flatMap_cons]
      rfl

theorem text_eq_shown (d : Document) (id : NodeId) : d.text id =
    String.ofList ((d.shown (d.children id)).flatMap fun c =>
      match d.kind? c with
      | some (.text s) => s.toList
      | _ => []) := by
  refine congrArg String.ofList (flatMap_shown (fun {x} hx => ?_) _).symm
  rw [hx]
  rfl

namespace MirrorsBelow

variable {R : NodeId → NodeId → Prop} (mirrors : MirrorsBelow d d' R) {a b : NodeId}

include mirrors

theorem element (h : R a b) : d.element? a = none ∧ d'.element? b = none ∨
    ∃ e e', d.element? a = some e ∧ d'.element? b = some e' ∧ e.Alike e' := by
  obtain ⟨k, k', hk, hk', alike⟩ := mirrors.kind h
  rw [element?, element?, hk, hk']
  cases alike with
  | element alike => exact .inr ⟨_, _, rfl, rfl, alike⟩
  | other notElement =>
    cases k with
    | element => cases notElement
    | _ => exact .inl ⟨rfl, rfl⟩

theorem isElement_eq (h : R a b) : d'.isElement b = d.isElement a := by
  rw [isElement, isElement]
  rcases mirrors.element h with ⟨none, none'⟩ | ⟨e, e', he, he', -⟩
  · rw [none, none']
  · rw [he, he', Option.isSome_some, Option.isSome_some]

theorem isNamed_eq (h : R a b) (uri localName : String) :
    d'.isNamed uri localName b = d.isNamed uri localName a := by
  rw [isNamed, isNamed]
  rcases mirrors.element h with ⟨none, none'⟩ | ⟨e, e', he, he', alike⟩
  · rw [none, none']
  · have same : e'.name.uri.getD "" = e.name.uri.getD "" := by
      rcases alike.uri with eq | ⟨empty, none⟩
      · rw [eq]
      · rw [empty, none]
        rfl
    rw [he, he']
    dsimp only
    rw [alike.localName, same]

theorem attribute?_eq (h : R a b) (name : String) : d'.attribute? b name = d.attribute? a name := by
  rw [attribute?, attribute?]
  rcases mirrors.element h with ⟨none, none'⟩ | ⟨e, e', he, he', alike⟩
  · rw [none, none']
  · rw [he, he', Option.bind_some, Option.bind_some, alike.attributes]

/-- A test that only elements pass finds nodes that correspond. -/
theorem filter_children (h : R a b) {test test' : NodeId → Bool}
    (same : ∀ {x y}, R x y → test' y = test x)
    (elements : ∀ {x}, test x = true → d.isElement x = true)
    (elements' : ∀ {y}, test' y = true → d'.isElement y = true) :
    List.Forall₂ R ((d.children a).filter test) ((d'.children b).filter test') := by
  rw [← filter_shown elements, ← filter_shown elements']
  exact forall₂_filter (mirrors.children h) same

theorem find?_children (h : R a b) {test test' : NodeId → Bool}
    (same : ∀ {x y}, R x y → test' y = test x)
    (elements : ∀ {x}, test x = true → d.isElement x = true)
    (elements' : ∀ {y}, test' y = true → d'.isElement y = true) :
    Option.Rel R ((d.children a).find? test) ((d'.children b).find? test') := by
  rw [← List.head?_filter, ← List.head?_filter]
  exact rel_head? (mirrors.filter_children h same elements elements')

theorem childElement? (h : R a b) (uri localName : String) :
    Option.Rel R (d.childElement? a uri localName) (d'.childElement? b uri localName) :=
  mirrors.find?_children h (fun hxy => mirrors.isNamed_eq hxy uri localName) isElement_of_isNamed
    isElement_of_isNamed

theorem childElements (h : R a b) (uri localName : String) :
    List.Forall₂ R (d.childElements a uri localName) (d'.childElements b uri localName) :=
  mirrors.filter_children h (fun hxy => mirrors.isNamed_eq hxy uri localName) isElement_of_isNamed
    isElement_of_isNamed

theorem childNamed? (h : R a b) (localName : String) :
    Option.Rel R (d.childNamed? a localName) (d'.childNamed? b localName) := by
  refine mirrors.find?_children h (fun {x y} hxy => ?_) (fun {x} passes => ?_) fun {y} passes => ?_
  · rcases mirrors.element hxy with ⟨none, none'⟩ | ⟨e, e', he, he', alike⟩
    · rw [none, none']
    · rw [he, he']
      dsimp only
      rw [alike.localName]
  all_goals
    split at passes
    · next e he => exact isElement_iff.2 ⟨e, he⟩
    · cases passes

theorem text_eq (h : R a b) : d'.text b = d.text a := by
  rw [text_eq_shown, text_eq_shown]
  refine congrArg String.ofList (flatMap_eq_of_forall₂ (mirrors.children h) fun hxy => ?_)
  obtain ⟨k, k', hk, hk', alike⟩ := mirrors.kind hxy
  rw [hk, hk']
  cases alike <;> rfl

end MirrorsBelow

namespace Mirrors

variable {R : NodeId → NodeId → Prop} (mirrors : Mirrors d d' R) {a b : NodeId}

include mirrors

/-- No empty text of the second document corresponds to anything. -/
theorem shown_children (h : R a b) : d'.shown (d'.children b) = d'.children b := by
  have all : List.Forall₂ (fun y x => d'.kind? y ≠ some (.text "") ∧ R x y) (d'.children b)
      (d.shown (d.children a)) := by
    refine (mirrors.children h).flip.imp fun y x hxy => ⟨fun empty => ?_, hxy⟩
    obtain ⟨k, k', -, hk', alike, ne⟩ := mirrors.kind hxy
    obtain rfl := Option.some.inj (hk'.symm.trans empty)
    cases alike
    exact ne rfl
  refine List.filter_eq_self.2 fun y hy => ?_
  simpa using ((List.forall₂_and_left _ _).1 all).1 y hy

theorem below : MirrorsBelow d d' R where
  kind h := by
    obtain ⟨k, k', hk, hk', alike, -⟩ := mirrors.kind h
    exact ⟨k, k', hk, hk', alike⟩
  children h := by
    rw [mirrors.shown_children h]
    exact mirrors.children h

/-! ### Canonical forms of documents that mirror each other -/

theorem scopeAt_eq (linked : d.Linked) (linked' : d'.Linked) (h : R a b) :
    d'.scopeAt b = d.scopeAt a := by
  induction a using Nat.strongRecOn generalizing b with
  | _ a ih =>
    have around : d'.scopeAround b = d.scopeAround a := by
      rw [scopeAround, scopeAround]
      rcases mirrors.parent h with ⟨none, none'⟩ | ⟨p, q, hp, hq, hpq⟩
      · rw [none, none']
      · rw [hp, hq]
        exact ih p (linked.parent_lt hp) hpq
    rw [Document.scopeAt_eq linked', Document.scopeAt_eq linked, around]
    rcases mirrors.below.element h with ⟨none, none'⟩ | ⟨e, e', he, he', alike⟩
    · rw [none, none']
    · rw [he, he']
      dsimp only
      rw [alike.declarations]

theorem scopeAround_eq (linked : d.Linked) (linked' : d'.Linked) (h : R a b) :
    d'.scopeAround b = d.scopeAround a := by
  rw [scopeAround, scopeAround]
  rcases mirrors.parent h with ⟨none, none'⟩ | ⟨p, q, hp, hq, hpq⟩
  · rw [none, none']
  · rw [hp, hq]
    exact mirrors.scopeAt_eq linked linked' hpq

/-- An empty text is no element and corresponds to nothing. -/
theorem skipped (h : R a b) {x : NodeId} (empty : d.kind? x = some (.text "")) :
    x ≠ a ∧ d.isElement x = false := by
  refine ⟨?_, by rw [isElement, element?, empty]; rfl⟩
  rintro rfl
  obtain ⟨k, -, hk, -, -, ne⟩ := mirrors.kind h
  exact ne (Option.some.inj (hk.symm.trans empty))

/-- Whether there are elements before a node is the same in both documents. -/
theorem any_takeWhile {ids ids' : List NodeId} (all : List.Forall₂ R (d.shown ids) ids')
    (h : R a b) : (ids'.takeWhile (· != b)).any d'.isElement =
      (ids.takeWhile (· != a)).any d.isElement := by
  induction ids generalizing ids' with
  | nil =>
    cases all
    rfl
  | cons x ids ih =>
    rw [shown, List.filter_cons] at all
    split at all
    · cases all with
      | @cons _ y _ ids' hxy rest =>
        rw [List.takeWhile_cons, List.takeWhile_cons]
        by_cases here : x = a
        · have there := (mirrors.inj hxy h).1 here
          simp [here, there]
        · have there : y ≠ b := fun eq => here ((mirrors.inj hxy h).2 eq)
          simp only [bne_iff_ne, ne_eq, here, there, not_false_eq_true, if_true, List.any_cons,
            mirrors.below.isElement_eq hxy, ih rest]
    · next empty =>
      obtain ⟨other, notElement⟩ := mirrors.skipped h (by simpa using empty)
      rw [List.takeWhile_cons_of_pos (by simpa using other), List.any_cons, notElement,
        Bool.false_or]
      exact ih all

theorem any_isElement {ids ids' : List NodeId} (all : List.Forall₂ R (d.shown ids) ids') :
    ids'.any d'.isElement = ids.any d.isElement := by
  induction ids generalizing ids' with
  | nil =>
    cases all
    rfl
  | cons x ids ih =>
    rw [shown, List.filter_cons] at all
    split at all
    · cases all with
      | cons hxy rest => rw [List.any_cons, List.any_cons, mirrors.below.isElement_eq hxy, ih rest]
    · next empty =>
      obtain ⟨-, notElement⟩ := mirrors.skipped mirrors.top (by simpa using empty)
      rw [List.any_cons, notElement, Bool.false_or]
      exact ih all

/-- Whether there are elements after a node is the same in both documents. -/
theorem any_dropWhile {ids ids' : List NodeId} (all : List.Forall₂ R (d.shown ids) ids')
    (h : R a b) : ((ids'.dropWhile (· != b)).drop 1).any d'.isElement =
      ((ids.dropWhile (· != a)).drop 1).any d.isElement := by
  induction ids generalizing ids' with
  | nil =>
    cases all
    rfl
  | cons x ids ih =>
    rw [shown, List.filter_cons] at all
    split at all
    · cases all with
      | @cons _ y _ ids' hxy rest =>
        by_cases here : x = a
        · have there := (mirrors.inj hxy h).1 here
          rw [List.dropWhile_cons_of_neg (by simpa using there),
            List.dropWhile_cons_of_neg (by simpa using here)]
          exact mirrors.any_isElement rest
        · have there : y ≠ b := fun eq => here ((mirrors.inj hxy h).2 eq)
          rw [List.dropWhile_cons_of_pos (by simpa using there),
            List.dropWhile_cons_of_pos (by simpa using here)]
          exact ih rest
    · next empty =>
      obtain ⟨other, -⟩ := mirrors.skipped h (by simpa using empty)
      rw [List.dropWhile_cons_of_pos (by simpa using other)]
      exact ih all

theorem isDocument_eq (h : R a b) : d'.isDocument b = d.isDocument a := by
  obtain ⟨k, k', hk, hk', alike, -⟩ := mirrors.kind h
  rw [isDocument, isDocument, hk, hk']
  cases alike <;> rfl

theorem place_eq (h : R a b) : d'.place b = d.place a := by
  obtain ⟨k, k', hk, hk', alike, -⟩ := mirrors.kind h
  rw [place, place, hk, hk']
  cases alike with
  | element => rfl
  | other =>
    rcases mirrors.parent h with ⟨none, none'⟩ | ⟨p, q, hp, hq, hpq⟩
    · rw [none, none']
      cases k <;> rfl
    · have children := mirrors.children hpq
      rw [hp, hq]
      cases k <;> simp only [mirrors.isDocument_eq hpq, mirrors.any_takeWhile children h,
        mirrors.any_dropWhile children h]

theorem corresponds {ids ids' : List NodeId} {f g : Forest (NodeId × Kind)} (hf : d.Shows ids f)
    (hg : d'.Shows ids' g) (all : List.Forall₂ R (d.shown ids) ids') : Corresponds R f g := by
  induction hf generalizing ids' g with
  | nil =>
    cases all
    cases hg
    exact .nil
  | @node id kind ids inner next hk hi hn ihInner ihNext =>
    rw [shown, List.filter_cons, hk] at all
    split at all
    · cases all with
      | cons hxy rest =>
        obtain ⟨k, k', eq, hk', alike, -⟩ := mirrors.kind hxy
        obtain rfl := Option.some.inj (hk.symm.trans eq)
        obtain ⟨inner', next', rfl, hi', hn'⟩ := hg.cons_cases hk'
        exact .node hxy alike (ihInner hi' (mirrors.children hxy)) (ihNext hn' rest)
    · next empty =>
      obtain rfl : kind = .text "" := by simpa using empty
      exact .empty (ihNext hg all)

/-- Nodes that correspond have the same canonical forms. -/
theorem canonical_eq (linked : d.Linked) (linked' : d'.Linked) (h : R a b)
    {excluded excluded' : Option NodeId} (hx : Option.Rel R excluded excluded') (comments : Bool)
    (inclusive : List String) : d'.canonical b excluded' comments inclusive =
      d.canonical a excluded comments inclusive := by
  obtain ⟨k, k', hk, hk', -, ne⟩ := mirrors.kind h
  have same {x y : NodeId} (hxy : R x y) : excluded' = some y ↔ excluded = some x := by
    cases hx with
    | none => simp
    | some hx =>
      rw [Option.some.injEq, Option.some.injEq]
      exact (mirrors.inj hx hxy).symm
  have forests : Corresponds R (d.view [a]) (d'.view [b]) := by
    refine mirrors.corresponds (shows_singleton linked hk) (shows_singleton linked' hk') ?_
    rw [shown, List.filter_cons_of_pos (by simp [hk, ne])]
    exact .cons h .nil
  rw [canonical, canonical, hk, hk', Document.rendered, Document.rendered, retained, retained,
    mirrors.place_eq h, mirrors.scopeAround_eq linked linked' h,
    forests.write_retain same]
  rfl

end Mirrors

end Document

end SamlSeal.Xml
