import SamlSeal.Proofs.Copies
import SamlSeal.Proofs.Footprint

/-!
# Open places

Two documents can be the same tree except at some places that are open: attributes whose values may
differ, and elements whose contents may differ.  The same change to both of them can only close such
places.

* `Document.SameBut`: two documents are the same, except at the places that are open,
* `SameBut.setAttribute`, `SameBut.setText`: what is put into an open place closes it,
* `SameBut.sameTree`: a tree without open places is the same in both documents.
-/

namespace SamlSeal.Xml

/-! ### Open places -/

/-- Two lists hold the same attributes at the same positions, except for the values of the first
ones that have one of the names and no namespace. -/
inductive Attribute.SameBut : (String → Prop) → List Attribute → List Attribute → Prop
  | nil {names : String → Prop} : SameBut names [] []
  | cons {names : String → Prop} {a b : Attribute} {as bs : List Attribute} (name : b.name = a.name)
    (value : b.value = a.value ∨ ∃ n, names n ∧ a.isPlain n = true)
    (rest : SameBut (fun n => names n ∧ a.isPlain n = false) as bs) :
    SameBut names (a :: as) (b :: bs)

/-- Two nodes are of the same kind, except for the values of some attributes. -/
inductive Kind.SameBut (names : String → Prop) : Kind → Kind → Prop
  | same (k : Kind) : SameBut names k k
  | element {e e' : Element} (name : e'.name = e.name)
    (declarations : e'.declarations = e.declarations)
    (attributes : Attribute.SameBut names e.attributes e'.attributes) :
    SameBut names (.element e) (.element e')

/-- Nodes of two documents correspond one to one, from node 0 downwards.  They are of the same kind,
except for the values of the attributes in `fields`, and have the same children, except for the
nodes in `slots`. -/
structure Document.SameBut (d d' : Document) (R : NodeId → NodeId → Prop)
    (fields : NodeId → String → Prop) (slots : NodeId → Prop) : Prop where
  top : R root root
  inj : ∀ {x y x' y'}, R x y → R x' y' → (x = x' ↔ y = y')
  kind : ∀ {x y}, R x y →
    ∃ k k', d.kind? x = some k ∧ d'.kind? y = some k' ∧ k.SameBut (fields x) k'
  children : ∀ {x y}, R x y → ¬ slots x → List.Forall₂ R (d.children x) (d'.children y)

/-! ### Values that are set -/

namespace Attribute

variable {name value : String} {names names' : String → Prop} {a b : Attribute}
  {as bs : List Attribute}

theorem isPlain_congr (h : b.name = a.name) (n : String) : b.isPlain n = a.isPlain n := by
  rw [isPlain, h, isPlain]

/-- A value that is there already is left as it is. -/
theorem set_eq_self (h : (as.find? (isPlain name)).map (·.value) = some value) :
    Attribute.set name value as = as := by
  induction as with
  | nil => cases h
  | cons a as ih =>
    rw [Attribute.set]
    cases plain : a.isPlain name with
    | true =>
      rw [List.find?_cons_of_pos plain, Option.map_some] at h
      rw [if_pos rfl, ← Option.some.inj h]
    | false =>
      rw [List.find?_cons_of_neg (by simp [plain])] at h
      rw [if_neg Bool.false_ne_true, ih h]

namespace SameBut

theorem mono (h : SameBut names as bs) (imp : ∀ n, names n → names' n) : SameBut names' as bs := by
  induction h generalizing names' with
  | nil => exact .nil
  | cons name value _ ih =>
    refine .cons name (value.imp_right ?_) (ih fun n hn => ⟨imp n hn.1, hn.2⟩)
    rintro ⟨n, hn, plain⟩
    exact ⟨n, imp n hn, plain⟩

/-- Without names, nothing may differ. -/
theorem eq (h : SameBut names as bs) (none : ∀ n, ¬ names n) : bs = as := by
  induction h with
  | nil => rfl
  | @cons names a b as bs name value _ ih =>
    rcases value with value | ⟨n, hn, -⟩
    · have same : b = a := by
        obtain ⟨_, _⟩ := a
        obtain ⟨_, _⟩ := b
        rw [Attribute.mk.injEq]
        exact ⟨name, value⟩
      rw [same, ih fun n hn => none n hn.1]
    · exact absurd hn (none n)

/-- Once a value is set, it is the same in both lists. -/
theorem set (h : SameBut names as bs) (name value : String) :
    SameBut (fun n => names n ∧ n ≠ name) (Attribute.set name value as)
      (Attribute.set name value bs) := by
  induction h with
  | nil => exact .cons rfl (.inl rfl) .nil
  | @cons names a b as bs same differs rest ih =>
    rw [Attribute.set, Attribute.set, isPlain_congr same]
    cases plain : a.isPlain name with
    | true =>
      refine .cons same (.inl rfl) (rest.mono ?_)
      -- what comes later is not the first one of that name
      rintro n ⟨hn, other⟩
      refine ⟨⟨hn, ?_⟩, other⟩
      rintro rfl
      exact Bool.false_ne_true (other.symm.trans plain)
    | false =>
      refine .cons same (differs.imp_right ?_) (ih.mono fun n hn => ⟨⟨hn.1.1, hn.2⟩, hn.1.2⟩)
      rintro ⟨n, hn, first⟩
      refine ⟨n, ⟨hn, ?_⟩, first⟩
      rintro rfl
      exact Bool.false_ne_true (plain.symm.trans first)

end SameBut

end Attribute

theorem Kind.SameBut.mono {names names' : String → Prop} {k k' : Kind} (h : k.SameBut names k')
    (imp : ∀ n, names n → names' n) : k.SameBut names' k' := by
  cases h with
  | same => exact .same k
  | element name declarations attributes =>
    exact .element name declarations (attributes.mono imp)

theorem Kind.SameBut.eq {names : String → Prop} {k k' : Kind} (h : k.SameBut names k')
    (none : ∀ n, ¬ names n) : k' = k := by
  cases h with
  | same => rfl
  | @element e e' name declarations attributes =>
    obtain ⟨_, _, _⟩ := e
    obtain ⟨_, _, _⟩ := e'
    rw [Kind.element.injEq, Element.mk.injEq]
    exact ⟨name, attributes.eq none, declarations⟩

namespace Document

variable {d d' d₁ d₁' : Document} {R : NodeId → NodeId → Prop} {fields : NodeId → String → Prop}
  {slots : NodeId → Prop} {x y : NodeId}

theorem setAttribute_eq_self {name value : String} (h : d.attribute? x name = some value) :
    d.setAttribute x name value = .ok d := by
  obtain ⟨e, he, found⟩ := Option.bind_eq_some_iff.1 h
  have same : e.setAttribute name value = e := by
    rw [Element.setAttribute, Attribute.set_eq_self found]
  rw [setAttribute, he]
  dsimp only
  rw [same]
  refine congrArg Except.ok (congrArg Document.mk (Array.ext_getElem? fun i => ?_))
  have row := node?_replaceElement d x i e
  rw [node?, node?] at row
  refine row.trans ?_
  split
  · next eq =>
    subst eq
    obtain ⟨n, hn, hk⟩ := Option.map_eq_some_iff.1 (kind?_of_element? he)
    rw [node?] at hn
    rw [hn, Option.map_some, ← hk]
  · rfl

namespace SameBut

variable (h : SameBut d d' R fields slots)

include h

theorem lt_size (hxy : R x y) : x < d.size ∧ y < d'.size := by
  obtain ⟨k, k', hk, hk', -⟩ := h.kind hxy
  exact ⟨lt_size_of_kind? hk, lt_size_of_kind? hk'⟩

theorem mono {fields' : NodeId → String → Prop} {slots' : NodeId → Prop}
    (imp : ∀ x n, fields x n → fields' x n) (imp' : ∀ x, slots x → slots' x) :
    SameBut d d' R fields' slots' where
  top := h.top
  inj := h.inj
  kind {x y} hxy := by
    obtain ⟨k, k', hk, hk', same⟩ := h.kind hxy
    exact ⟨k, k', hk, hk', same.mono (imp x)⟩
  children hxy out := h.children hxy fun slot => out (imp' _ slot)

/-! ### Questions that open places have no part in -/

theorem element (hxy : R x y) : d.element? x = none ∧ d'.element? y = none ∨
    ∃ e e', d.element? x = some e ∧ d'.element? y = some e' ∧ e'.name = e.name := by
  obtain ⟨k, k', hk, hk', same⟩ := h.kind hxy
  rw [element?, element?, hk, hk', Option.bind_some, Option.bind_some]
  cases same with
  | same =>
    cases k with
    | element e => exact .inr ⟨e, e, rfl, rfl, rfl⟩
    | _ => exact .inl ⟨rfl, rfl⟩
  | @element e e' name => exact .inr ⟨e, e', rfl, rfl, name⟩

theorem isElement_eq (hxy : R x y) : d'.isElement y = d.isElement x := by
  rw [isElement, isElement]
  rcases h.element hxy with ⟨none, none'⟩ | ⟨e, e', he, he', -⟩
  · rw [none, none']
  · rw [he, he']
    rfl

theorem isNamed_eq (hxy : R x y) (uri name : String) :
    d'.isNamed uri name y = d.isNamed uri name x := by
  rw [isNamed, isNamed]
  rcases h.element hxy with ⟨none, none'⟩ | ⟨e, e', he, he', same⟩
  · rw [none, none']
  · rw [he, he']
    dsimp only
    rw [same]

theorem childElement? (hxy : R x y) (out : ¬ slots x) (uri name : String) :
    Option.Rel R (d.childElement? x uri name) (d'.childElement? y uri name) :=
  rel_find? (h.children hxy out) fun hc => h.isNamed_eq hc uri name

theorem childElements (hxy : R x y) (out : ¬ slots x) (uri name : String) :
    List.Forall₂ R (d.childElements x uri name) (d'.childElements y uri name) :=
  forall₂_filter (h.children hxy out) fun hc => h.isNamed_eq hc uri name

/-! ### Closing places -/

/-- An attribute that is set in both documents is open no more. -/
theorem setAttribute (hxy : R x y) {name value : String}
    (set : d.setAttribute x name value = .ok d₁) (set' : d'.setAttribute y name value = .ok d₁') :
    SameBut d₁ d₁' R (fun z n => fields z n ∧ ¬ (z = x ∧ n = name)) slots where
  top := h.top
  inj := h.inj
  kind {z w} hzw := by
    obtain ⟨k, k', hk, hk', same⟩ := h.kind hzw
    by_cases eq : z = x
    · obtain rfl := (h.inj hzw hxy).1 eq
      subst eq
      obtain ⟨e, he, -⟩ := setAttribute_cases set
      obtain ⟨e', he', -⟩ := setAttribute_cases set'
      have new := kind?_of_element? (element?_setAttribute_self set he)
      have new' := kind?_of_element? (element?_setAttribute_self set' he')
      rw [kind?_of_element? he] at hk
      rw [kind?_of_element? he'] at hk'
      obtain rfl := Option.some.inj hk
      obtain rfl := Option.some.inj hk'
      refine ⟨_, _, new, new', ?_⟩
      cases same with
      | same => exact .same _
      | element same declarations attributes =>
        exact .element same declarations
          ((attributes.set name value).mono fun n hn => ⟨hn.1, fun both => hn.2 both.2⟩)
    · have ne : w ≠ y := fun eq' => eq ((h.inj hzw hxy).2 eq')
      exact ⟨k, k', (kind?_setAttribute set eq).trans hk, (kind?_setAttribute set' ne).trans hk',
        same.mono fun n hn => ⟨hn, fun both => eq both.1⟩⟩
  children {z w} hzw out := by
    rw [children_setAttribute set, children_setAttribute set']
    exact h.children hzw out

/-- An element that gets the same text in both documents is open no more. -/
theorem setText (linked : d.Linked) (linked' : d'.Linked) (hxy : R x y) {content : String}
    (nonempty : content ≠ "") (set : d.setText x content = .ok d₁)
    (set' : d'.setText y content = .ok d₁') :
    ∃ S : NodeId → NodeId → Prop, (∀ {z w}, R z w → S z w) ∧
      SameBut d₁ d₁' S fields fun z => slots z ∧ z ≠ x := by
  obtain ⟨t, new, only, kind, -, leaf⟩ := Filled.of_setText set linked nonempty
  obtain ⟨t', new', only', kind', -, leaf'⟩ := Filled.of_setText set' linked' nonempty
  refine ⟨fun z w => R z w ∨ z = t ∧ w = t', .inl, .inl h.top, ?_, ?_, ?_⟩
  · -- no node that was there before is one of the new texts
    have old {z w : NodeId} (hzw : R z w) : z ≠ t ∧ w ≠ t' := by
      obtain ⟨lt, lt'⟩ := h.lt_size hzw
      exact ⟨Nat.ne_of_lt (Nat.lt_of_lt_of_le lt new), Nat.ne_of_lt (Nat.lt_of_lt_of_le lt' new')⟩
    rintro z w z' w' (hzw | ⟨rfl, rfl⟩) (hzw' | ⟨rfl, rfl⟩)
    · exact h.inj hzw hzw'
    · exact iff_of_false (old hzw).1 (old hzw).2
    · exact iff_of_false (old hzw').1.symm (old hzw').2.symm
    · exact iff_of_true rfl rfl
  · rintro z w (hzw | ⟨rfl, rfl⟩)
    · obtain ⟨k, k', hk, hk', same⟩ := h.kind hzw
      obtain ⟨lt, lt'⟩ := h.lt_size hzw
      exact ⟨k, k', (kind?_setText set lt).trans hk, (kind?_setText set' lt').trans hk', same⟩
    · exact ⟨_, _, kind, kind', .same _⟩
  · rintro z w (hzw | ⟨rfl, rfl⟩) out
    · by_cases eq : z = x
      · obtain rfl := (h.inj hzw hxy).1 eq
        subst eq
        rw [only, only']
        exact .cons (.inr ⟨rfl, rfl⟩) .nil
      · have ne : w ≠ y := fun eq' => eq ((h.inj hzw hxy).2 eq')
        rw [children_setText_of_ne set eq, children_setText_of_ne set' ne]
        exact (h.children hzw fun slot => out ⟨slot, eq⟩).imp fun _ _ => .inl
    · rw [leaf, leaf']
      exact .nil

/-- Elements that correspond can both be given a text. -/
theorem setText_agree (linked : d.Linked) (linked' : d'.Linked) (hxy : R x y)
    (element : ∃ e, d.element? x = some e) {content : String} (nonempty : content ≠ "") :
    Agree (fun d₁ d₁' => ∃ S : NodeId → NodeId → Prop, (∀ {z w}, R z w → S z w) ∧
        SameBut d₁ d₁' S fields fun z => slots z ∧ z ≠ x)
      (d.setText x content) (d'.setText y content) := by
  obtain ⟨e, he⟩ := element
  obtain ⟨e', he'⟩ := isElement_iff.1 ((h.isElement_eq hxy).trans (isElement_iff.2 ⟨e, he⟩))
  obtain ⟨d₁, set⟩ := setText_eq_ok he content
  obtain ⟨d₁', set'⟩ := setText_eq_ok he' content
  rw [set, set']
  exact .ok (h.setText linked linked' hxy nonempty set set')

end SameBut

/-! ### Trees without open places -/

section Closed

variable (linked : d.Linked) (h : SameBut d d' R (fun _ _ => False) slots)

include h

theorem SameBut.kind_eq (hxy : R x y) : ∃ k, d.kind? x = some k ∧ d'.kind? y = some k := by
  obtain ⟨k, k', hk, hk', same⟩ := h.kind hxy
  obtain rfl := same.eq fun _ => id
  exact ⟨_, hk, hk'⟩

theorem SameBut.element?_eq (hxy : R x y) : d'.element? y = d.element? x := by
  obtain ⟨k, hk, hk'⟩ := h.kind_eq hxy
  rw [element?, element?, hk, hk']

theorem SameBut.attribute?_eq (hxy : R x y) (name : String) :
    d'.attribute? y name = d.attribute? x name := by
  rw [attribute?, attribute?, h.element?_eq hxy]

include linked

/-- A tree without open places is the same in both documents. -/
theorem SameBut.sameTree (hxy : R x y) (closed : ∀ z, d.Below x z → ¬ slots z) :
    SameTree d d' x y := by
  -- children come later in the table, so less of it is left behind them
  induction left : d.size - x using Nat.strongRecOn generalizing x y with
  | _ n ih =>
    obtain ⟨k, hk, hk'⟩ := h.kind_eq hxy
    refine sameTree_iff.2 ⟨k, hk, hk', sameTrees_iff_forall₂.2 ?_⟩
    have all := (List.forall₂_and_left _ _).2
      ⟨fun c (hc : c ∈ d.children x) => hc, h.children hxy (closed x .refl)⟩
    refine all.imp fun c c' hc => ?_
    have lt := linked.child_lt hc.1
    have bound := linked.child_lt_size hc.1
    exact ih (d.size - c) (by omega) hc.2
      (fun z below => closed z ((Below.refl.child linked hc.1).trans below)) rfl

theorem SameBut.sameTrees {xs ys : List NodeId} (all : List.Forall₂ R xs ys)
    (closed : ∀ x ∈ xs, ∀ z, d.Below x z → ¬ slots z) : SameTrees d d' xs ys := by
  refine sameTrees_iff_forall₂.2 (((List.forall₂_and_left _ _).2 ⟨closed, all⟩).imp ?_)
  rintro x y ⟨none, hxy⟩
  exact h.sameTree linked hxy none

/-- The same bindings are in force at nodes that correspond, if they are around them. -/
theorem SameBut.scopeAt_eq (linked' : d'.Linked) (hxy : R x y) {p q : NodeId}
    (hx : x ∈ d.children p) (hy : y ∈ d'.children q) (around : d'.scopeAt q = d.scopeAt p) :
    d'.scopeAt y = d.scopeAt x := by
  rw [Document.scopeAt_eq linked, Document.scopeAt_eq linked', h.element?_eq hxy,
    scopeAround_of_parent (linked.mem_children_iff.1 hx),
    scopeAround_of_parent (linked'.mem_children_iff.1 hy), around]

theorem SameBut.scopeAt_root (linked' : d'.Linked) : d'.scopeAt root = d.scopeAt root := by
  rw [Document.scopeAt_eq linked, Document.scopeAt_eq linked', h.element?_eq h.top, scopeAround,
    scopeAround, linked.parent?_root, linked'.parent?_root]

end Closed

end Document

end SamlSeal.Xml
