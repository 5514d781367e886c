import SamlSeal.Canonical.Form
import SamlSeal.Proofs.Table

/-!
# What a document shows below a node

`Document.lineage` and `Document.view` count down from the size of the table.  In a linked table
they never run out, so they follow the table itself:

* `scopeAt_of_element`: the bindings at an element are those around it with its own declarations,
* `Document.Shows`: a forest holds the given nodes and everything below them.  `view_eq_iff` says
  that the view is the forest that is shown.

From this follows what the canonical form of a node depends on (`canonical_congr`): the bindings
around the node, and the rows of the nodes that are written.
-/

namespace SamlSeal.Xml.Document

variable {d d' : Document}

/-! ### Bindings in force -/

theorem lineage_go_eq (hd : d.Linked) {id m n : Nat} (hm : id < m) (hn : id < n) :
    lineage.go d m id = lineage.go d n id := by
  -- on one of the bounds: parents come earlier, so both stay above the node
  induction m generalizing id n with
  | zero => exact absurd hm (Nat.not_lt_zero _)
  | succ m ih =>
    obtain ⟨n, rfl⟩ : ∃ k, n = k + 1 := ⟨n - 1, by omega⟩
    rw [lineage.go, lineage.go]
    cases hp : d.parent? id with
    | none => rfl
    | some p =>
      have lt := hd.parent_lt hp
      exact congrArg (id :: ·) (ih (by omega) (by omega))

theorem lineage_eq (hd : d.Linked) (id : NodeId) :
    d.lineage id = id :: match d.parent? id with
      | some p => d.lineage p
      | none => [] := by
  have pos : 0 < d.size := hd.size_pos
  obtain ⟨n, hn⟩ : ∃ n, d.size = n + 1 := ⟨d.size - 1, by omega⟩
  rw [lineage, hn, lineage.go]
  cases hp : d.parent? id with
  | none => rfl
  | some p =>
    have lt := hd.parent_lt hp
    have bound := lt_size_of_parent? hp
    refine congrArg (id :: ·) (lineage_go_eq hd (by omega) ?_)
    omega

theorem scopeAt_eq (hd : d.Linked) (id : NodeId) : d.scopeAt id =
    match d.element? id with
    | some e => (d.scopeAround id).declare e.declarations
    | none => d.scopeAround id := by
  rw [scopeAt, lineage_eq hd, scopeAround]
  cases d.parent? id <;> rfl

theorem scopeAt_of_element (hd : d.Linked) {id : NodeId} {e : Element}
    (h : d.element? id = some e) : d.scopeAt id = (d.scopeAround id).declare e.declarations := by
  rw [scopeAt_eq hd, h]

theorem scopeAround_of_parent {id p : NodeId} (h : d.parent? id = some p) :
    d.scopeAround id = d.scopeAt p := by
  rw [scopeAround, h]

/-- What holds of no bindings at all, and is kept by the declarations of every element, holds of the
bindings around every node and of those at it. -/
theorem scope_induction {motive : Scope → Prop} (hd : d.Linked) (nil : motive [])
    (declare : ∀ x e s, d.element? x = some e → motive s → motive (s.declare e.declarations))
    (id : NodeId) : motive (d.scopeAround id) ∧ motive (d.scopeAt id) := by
  induction id using Nat.strongRecOn with
  | _ id ih =>
    have around : motive (d.scopeAround id) := by
      rw [scopeAround]
      cases hp : d.parent? id with
      | none => exact nil
      | some p => exact (ih p (hd.parent_lt hp)).2
    refine ⟨around, ?_⟩
    rw [scopeAt_eq hd]
    cases he : d.element? id with
    | none => exact around
    | some e => exact declare id e _ he around

/-- The bindings at a node depend on the declarations above it only. -/
theorem scopeAt_congr (hd : d.Linked) (hd' : d'.Linked) (id : NodeId)
    (same : ∀ a, d.Below a id → d'.parent? a = d.parent? a ∧
      (d'.element? a).map (·.declarations) = (d.element? a).map (·.declarations)) :
    d'.scopeAt id = d.scopeAt id := by
  induction id using Nat.strongRecOn with
  | _ id ih =>
    have around : d'.scopeAround id = d.scopeAround id := by
      rw [scopeAround, (same id .refl).1, scopeAround]
      cases hp : d.parent? id with
      | none => rfl
      | some p => exact ih p (hd.parent_lt hp) fun a ha => same a (.step hp ha)
    have decls := (same id .refl).2
    rw [scopeAt_eq hd', scopeAt_eq hd, around]
    cases h : d.element? id with
    | none =>
      rw [h, Option.map_none, Option.map_eq_none_iff] at decls
      rw [decls]
    | some e =>
      rw [h, Option.map_some, Option.map_eq_some_iff] at decls
      obtain ⟨e', he', eq⟩ := decls
      rw [he']
      exact congrArg _ eq

/-! ### Views -/

/-- A forest holds the given nodes, each with its kind and with everything below it. -/
inductive Shows (d : Document) : List NodeId → Forest (NodeId × Kind) → Prop
  | nil : Shows d [] .nil
  | node {id : NodeId} {kind : Kind} {ids : List NodeId} {inner next : Forest (NodeId × Kind)}
    (hk : d.kind? id = some kind) (hi : Shows d (d.children id) inner) (hn : Shows d ids next) :
    Shows d (id :: ids) (.node (id, kind) inner next)

theorem view_go_shows (hd : d.Linked) {n : Nat} {ids : List NodeId}
    (h : ∀ id ∈ ids, id < d.size ∧ d.size ≤ id + n) : d.Shows ids (view.go d n ids) := by
  induction n generalizing ids with
  | zero =>
    cases ids with
    | nil => exact .nil
    | cons id ids =>
      obtain ⟨lt, le⟩ := h id List.mem_cons_self
      exact absurd le (Nat.not_le_of_lt lt)
  | succ n ih =>
    -- children come later in the table, so less of it is left behind them
    induction ids with
    | nil => exact .nil
    | cons id ids ihIds =>
      obtain ⟨lt, le⟩ := h id List.mem_cons_self
      obtain ⟨k, hk⟩ := kind?_of_lt lt
      have inner : d.Shows (d.children id) (view.go d n (d.children id)) := by
        refine ih fun c hc => ⟨hd.child_lt_size hc, ?_⟩
        have := hd.child_lt hc
        omega
      have next := ihIds fun x hx => h x (List.mem_cons_of_mem _ hx)
      rw [view.go] at next ⊢
      rw [List.foldr_cons, hk]
      exact .node hk inner next

theorem view_shows (hd : d.Linked) {ids : List NodeId} (h : ∀ id ∈ ids, id < d.size) :
    d.Shows ids (d.view ids) :=
  view_go_shows hd fun id hid => ⟨h id hid, Nat.le_add_left _ _⟩

theorem shows_children (hd : d.Linked) (id : NodeId) :
    d.Shows (d.children id) (d.view (d.children id)) :=
  view_shows hd fun _ hc => hd.child_lt_size hc

theorem shows_singleton (hd : d.Linked) {id : NodeId} {kind : Kind} (hk : d.kind? id = some kind) :
    d.Shows [id] (d.view [id]) := by
  refine view_shows hd fun x hx => ?_
  rw [List.mem_singleton.1 hx]
  exact lt_size_of_kind? hk

namespace Shows

variable {ids : List NodeId} {f g : Forest (NodeId × Kind)}

/-- The first tree, by what the first node stands for. -/
theorem cons_cases {id : NodeId} {kind : Kind} (h : d.Shows (id :: ids) f)
    (hk : d.kind? id = some kind) : ∃ inner next, f = .node (id, kind) inner next ∧
      d.Shows (d.children id) inner ∧ d.Shows ids next := by
  cases h with
  | node hk' hi hn =>
    obtain rfl := Option.some.inj (hk.symm.trans hk')
    exact ⟨_, _, rfl, hi, hn⟩

theorem unique (hf : d.Shows ids f) (hg : d.Shows ids g) : f = g := by
  induction hf generalizing g with
  | nil =>
    cases hg
    rfl
  | node hk _ _ ihInner ihNext =>
    obtain ⟨inner, next, rfl, hi, hn⟩ := hg.cons_cases hk
    rw [ihInner hi, ihNext hn]

end Shows

/-- The view of some nodes is the forest that holds them. -/
theorem view_eq_iff (hd : d.Linked) {ids : List NodeId} (h : ∀ id ∈ ids, id < d.size)
    {f : Forest (NodeId × Kind)} : d.view ids = f ↔ d.Shows ids f :=
  ⟨fun eq => eq ▸ view_shows hd h, fun hf => (view_shows hd h).unique hf⟩

theorem view_singleton (hd : d.Linked) {id : NodeId} {kind : Kind} (hk : d.kind? id = some kind) :
    d.view [id] = .node (id, kind) (d.view (d.children id)) .nil :=
  (shows_singleton hd hk).unique (.node hk (shows_children hd id) .nil)

/-! ### What a canonical form depends on -/

open Canonical

/-- Only elements change the place of what comes after them. -/
theorem next_of_not_isElement {kind : Kind} (h : kind.isElement = false) (place : Place) :
    place.next kind = place := by
  cases place with
  | inside => rfl
  | outside before after => rw [Place.next, h, Bool.or_false]

theorem retain_node (excluded : Option NodeId) (comments : Bool) (place : Place) (id : NodeId)
    (kind : Kind) (inner next : Forest (NodeId × Kind)) :
    retain excluded comments place (.node (id, kind) inner next) =
      if excluded = some id then retain excluded comments (place.next kind) next
      else match kind with
        | .document => retain excluded comments (.outside false false) inner ++
            retain excluded comments (place.next kind) next
        | .element e => .node (.element e) (retain excluded comments .inside inner)
            (retain excluded comments (place.next kind) next)
        | .text content =>
          if place = .inside then
            .node (.text content) .nil (retain excluded comments (place.next kind) next)
          else retain excluded comments (place.next kind) next
        | .comment content =>
          if comments then
            framed place (.comment content) next (retain excluded comments (place.next kind) next)
          else retain excluded comments (place.next kind) next
        | .instruction target data =>
          framed place (.instruction target data) next
            (retain excluded comments (place.next kind) next) := by
  cases kind <;> rfl

theorem canonical_eq_ok {apex : NodeId} {excluded : Option NodeId} {comments : Bool}
    {inclusive : List String} {form : List Char} (hd : (d.kind? apex).isSome)
    (written : Canonical.write (d.rendered apex excluded comments inclusive) = form) :
    d.canonical apex excluded comments inclusive = .ok (String.ofList form) := by
  rw [canonical, if_pos hd, written]

/-- A node does not lie below the excluded one. -/
def Kept (d : Document) (excluded : Option NodeId) (x : NodeId) : Prop :=
  ∀ s ∈ excluded, ¬ d.Below s x

theorem Kept.child (hd : d.Linked) {excluded : Option NodeId} {x c : NodeId}
    (h : d.Kept excluded x) (hc : c ∈ d.children x) : ∀ s ∈ excluded, d.Below s c → c = s := by
  intro s hs hb
  exact (hb.cases_child hd hc).resolve_right (h s hs)

/-- Two documents have the same rows at the nodes below some nodes, the excluded node and what is
below it left aside.  Of the excluded node only this matters, whether it is an element. -/
structure SameRows (d d' : Document) (excluded : Option NodeId) (ids : List NodeId) : Prop where
  kind : ∀ x, (∃ a ∈ ids, d.Below a x) → d.Kept excluded x → d'.kind? x = d.kind? x
  children : ∀ x, (∃ a ∈ ids, d.Below a x) → d.Kept excluded x → d'.children x = d.children x
  gap : ∀ s ∈ excluded, (d'.kind? s).map Kind.isElement = (d.kind? s).map Kind.isElement
  /-- None of the nodes lies properly below the excluded one. -/
  top : ∀ a ∈ ids, ∀ s ∈ excluded, d.Below s a → a = s

namespace SameRows

variable {excluded : Option NodeId} {id : NodeId} {ids : List NodeId}

theorem tail (h : SameRows d d' excluded (id :: ids)) : SameRows d d' excluded ids where
  kind x := fun ⟨a, ha, hx⟩ => h.kind x ⟨a, List.mem_cons_of_mem _ ha, hx⟩
  children x := fun ⟨a, ha, hx⟩ => h.children x ⟨a, List.mem_cons_of_mem _ ha, hx⟩
  gap := h.gap
  top a ha := h.top a (List.mem_cons_of_mem _ ha)

theorem inner (hd : d.Linked) (h : SameRows d d' excluded (id :: ids)) (hid : d.Kept excluded id) :
    SameRows d d' excluded (d.children id) where
  kind x := fun ⟨_, hc, hx⟩ => h.kind x
    ⟨id, List.mem_cons_self, (Below.step (hd.mem_children_iff.1 hc) .refl).trans hx⟩
  children x := fun ⟨_, hc, hx⟩ => h.children x
    ⟨id, List.mem_cons_self, (Below.step (hd.mem_children_iff.1 hc) .refl).trans hx⟩
  gap := h.gap
  top _ hc := hid.child hd hc

/-- One of the nodes is kept, unless it is the excluded one. -/
theorem kept (h : SameRows d d' excluded (id :: ids)) (ne : excluded ≠ some id) :
    d.Kept excluded id := by
  intro s hs hb
  have := h.top id List.mem_cons_self s hs hb
  exact ne (this ▸ hs)

theorem isElement_eq (h : SameRows d d' excluded (id :: ids)) :
    (d'.kind? id).map Kind.isElement = (d.kind? id).map Kind.isElement := by
  by_cases ex : excluded = some id
  · exact h.gap id ex
  · rw [h.kind id ⟨id, List.mem_cons_self, .refl⟩ (h.kept ex)]

theorem hasElement_eq (h : SameRows d d' excluded ids) {f g : Forest (NodeId × Kind)}
    (hf : d.Shows ids f) (hg : d'.Shows ids g) : hasElement g = hasElement f := by
  induction hf generalizing g with
  | nil =>
    cases hg
    rfl
  | node hk _ _ _ ihNext =>
    cases hg with
    | node hk' _ hn' =>
      have eq := h.isElement_eq
      rw [hk, hk', Option.map_some, Option.map_some] at eq
      have ih := ihNext h.tail hn'
      simp only [hasElement, Forest.roots, List.any_cons] at ih ⊢
      rw [ih, Option.some.inj eq]

/-- What is retained of some nodes depends on the rows of the nodes that are kept. -/
theorem retain_eq (hd : d.Linked) (h : SameRows d d' excluded ids) (comments : Bool)
    (place : Place) {f g : Forest (NodeId × Kind)} (hf : d.Shows ids f) (hg : d'.Shows ids g) :
    retain excluded comments place g = retain excluded comments place f := by
  induction hf generalizing g place with
  | nil =>
    cases hg
    rfl
  | @node id kind ids inner next hk hi hn ihInner ihNext =>
    cases hg with
    | @node _ kind' _ inner' next' hk' hi' hn' =>
      have eq : kind'.isElement = kind.isElement := by
        have := h.isElement_eq
        rw [hk, hk', Option.map_some, Option.map_some] at this
        exact Option.some.inj this
      have place_eq : place.next kind' = place.next kind := by
        cases place <;> simp only [Place.next, eq]
      -- the siblings that follow are retained alike even if this node is the excluded one
      have rest := ihNext h.tail (place.next kind) hn'
      rw [retain_node, retain_node, place_eq, rest]
      by_cases ex : excluded = some id
      · rw [if_pos ex, if_pos ex]
      rw [if_neg ex, if_neg ex]
      have kept := h.kept ex
      have below : ∃ a ∈ id :: ids, d.Below a id := ⟨id, List.mem_cons_self, .refl⟩
      obtain rfl : kind' = kind := by
        have := h.kind id below kept
        rw [hk, hk'] at this
        exact Option.some.inj this
      rw [h.children id below kept] at hi'
      have inside := fun place => ihInner (h.inner hd kept) place hi'
      have siblings := h.tail.hasElement_eq hn hn'
      cases kind' <;> simp only [inside, framed, siblings]

end SameRows

/-- The canonical form of an element depends on the bindings around it and on the rows of the nodes
that are written. -/
theorem canonical_congr (hd : d.Linked) (hd' : d'.Linked) {apex : NodeId} {e : Element}
    (he : d.element? apex = some e) {excluded : Option NodeId} (ne : excluded ≠ some apex)
    (rows : SameRows d d' excluded [apex]) (scope : d'.scopeAround apex = d.scopeAround apex)
    (comments : Bool) (inclusive : List String) :
    d'.canonical apex excluded comments inclusive =
      d.canonical apex excluded comments inclusive := by
  have hk := kind?_of_element? he
  have hk' : d'.kind? apex = some (.element e) := by
    rw [rows.kind apex ⟨apex, List.mem_cons_self, .refl⟩ (rows.kept ne), hk]
  have inside : d.place apex = .inside := by rw [place, hk]
  have inside' : d'.place apex = .inside := by rw [place, hk']
  rw [canonical, canonical, hk, hk', rendered, rendered, retained, retained, scope, inside,
    inside', rows.retain_eq hd comments .inside (shows_singleton hd hk) (shows_singleton hd' hk')]

end SamlSeal.Xml.Document

namespace SamlSeal.Canonical

open Xml

/-! ### Positions that do not matter -/

/-- The pieces that are written of a tree.  Nothing is excluded, so that positions do not matter. -/
def pieces (comments : Bool) (place : Place) (f : Forest Kind) : Forest (Piece Element) :=
  retain none comments place (f.map fun kind => (Document.root, kind))

theorem retain_eq_pieces (comments : Bool) (place : Place) (f : Forest (NodeId × Kind)) :
    retain none comments place f = pieces comments place (f.map Prod.snd) := by
  have siblings (f : Forest (NodeId × Kind)) :
      hasElement ((f.map Prod.snd).map fun kind => (Document.root, kind)) = hasElement f := by
    induction f with
    | nil => rfl
    | node label inner next _ ih =>
      simp only [hasElement, Forest.map, Forest.roots, List.any_cons] at ih ⊢
      rw [ih]
  have framed_eq (place : Place) (piece : Piece Element) (f : Forest (NodeId × Kind))
      (rest : Forest (Piece Element)) : framed place piece f rest =
        framed place piece ((f.map Prod.snd).map fun kind => (Document.root, kind)) rest := by
    cases place <;> simp only [framed, siblings]
  rw [pieces]
  induction f generalizing place with
  | nil => rfl
  | node label inner next ihInner ihNext =>
    obtain ⟨id, kind⟩ := label
    rw [Forest.map, Forest.map, Document.retain_node, Document.retain_node,
      if_neg (Option.some_ne_none _).symm, if_neg (Option.some_ne_none _).symm]
    cases kind <;> dsimp only <;> simp only [ihInner, ihNext, framed_eq _ _ next]

end SamlSeal.Canonical
