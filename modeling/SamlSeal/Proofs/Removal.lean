import SamlSeal.Proofs.Copies

/-!
# Removing nodes

`Document.removing` takes some nodes out of a document, each with everything below it.  All other
nodes keep their positions, so that the two documents can be compared node by node.

* `Linked.removing`: what is left is a tree again,
* `Stays`: a node that is not removed, neither by itself nor with a node above it,
* `Unwritten`: nodes of which a canonical form shows nothing.  They are excluded, or they are
  comments that are not asked for,
* `canonical_removing`: removing such nodes changes no canonical form,
* `canonical_excluding`: to exclude a node is to remove it.
-/

namespace SamlSeal.Xml.Document

open Canonical

variable {d d' : Document} {gone : NodeId → Bool}

/-! ### The rows of what is left -/

/-- The document without some nodes and what is below them: no node lists them as children any more,
and they have no parent. -/
def removing (d : Document) (gone : NodeId → Bool) : Document :=
  ⟨d.nodes.mapIdx fun id n =>
    { n with
      parent := if gone id then none else n.parent
      children := n.children.filter fun c => !gone c }⟩

theorem node?_removing (d : Document) (gone : NodeId → Bool) (id : NodeId) :
    (d.removing gone).node? id = (d.node? id).map fun n =>
      { n with
        parent := if gone id then none else n.parent
        children := n.children.filter fun c => !gone c } := by
  rw [node?, removing, Array.getElem?_mapIdx, node?]

@[simp] theorem kind?_removing (d : Document) (gone : NodeId → Bool) (id : NodeId) :
    (d.removing gone).kind? id = d.kind? id := by
  rw [kind?, node?_removing, kind?, Option.map_map]
  rfl

@[simp] theorem element?_removing (d : Document) (gone : NodeId → Bool) (id : NodeId) :
    (d.removing gone).element? id = d.element? id := by
  rw [element?, kind?_removing, element?]

@[simp] theorem isElement_removing (d : Document) (gone : NodeId → Bool) :
    (d.removing gone).isElement = d.isElement := by
  funext id
  rw [isElement, element?_removing, isElement]

@[simp] theorem attribute?_removing (d : Document) (gone : NodeId → Bool) :
    (d.removing gone).attribute? = d.attribute? := by
  funext x name
  rw [attribute?, element?_removing, attribute?]

theorem parent?_removing (d : Document) (gone : NodeId → Bool) (id : NodeId) :
    (d.removing gone).parent? id = if gone id then none else d.parent? id := by
  rw [parent?, node?_removing, parent?]
  cases d.node? id <;> simp

theorem children_removing (d : Document) (gone : NodeId → Bool) (id : NodeId) :
    (d.removing gone).children id = (d.children id).filter fun c => !gone c := by
  rw [children, node?_removing, children]
  cases d.node? id <;> rfl

theorem Linked.removing (linked : d.Linked) (gone : NodeId → Bool) : (d.removing gone).Linked where
  root_kind := by rw [kind?_removing, linked.root_kind]
  mem_children_iff := by
    intro p c
    rw [children_removing, parent?_removing, List.mem_filter, linked.mem_children_iff]
    cases gone c <;> simp
  parent_lt := by
    intro p c h
    rw [parent?_removing] at h
    split at h
    · cases h
    · exact linked.parent_lt h
  sorted := by
    intro p
    rw [children_removing]
    exact (linked.sorted p).filter _

/-- A node is not removed, neither itself nor with a node above it. -/
def Stays (d : Document) (gone : NodeId → Bool) (x : NodeId) : Prop :=
  ∀ s, gone s = true → ¬ d.Below s x

namespace Stays

variable {x c p : NodeId} (h : d.Stays gone x)

include h

theorem not_gone : gone x = false := by
  cases out : gone x with
  | false => rfl
  | true => exact absurd .refl (h x out)

theorem parent (hp : d.parent? x = some p) : d.Stays gone p := by
  intro s hs below
  exact h s hs (.step hp below)

theorem child (linked : d.Linked) (hc : c ∈ d.children x) (out : gone c = false) :
    d.Stays gone c := by
  intro s hs below
  rcases below.cases_child linked hc with rfl | above
  · rw [out] at hs
    cases hs
  · exact h s hs above

theorem above (hp : d.Below p x) : d.Stays gone p := by
  intro s hs below
  exact h s hs (below.trans hp)

end Stays

/-- What lies below a node in what is left lay below it before, and not below a removed node. -/
theorem below_of_removing (linked : d.Linked) {a x : NodeId} (h : (d.removing gone).Below a x)
    (ha : d.Stays gone a) : d.Below a x ∧ d.Stays gone x := by
  induction h with
  | refl => exact ⟨.refl, ha⟩
  | @step p c hp _ ih =>
    obtain ⟨below, stays⟩ := ih
    rw [parent?_removing] at hp
    split at hp
    · cases hp
    next out =>
    exact ⟨.step hp below, stays.child linked (linked.mem_children_iff.2 hp) (by simpa using out)⟩

theorem isElement_of_kind? {x : NodeId} {k : Kind} (hk : d.kind? x = some k) :
    d.isElement x = k.isElement := by
  rw [isElement, element?, hk]
  cases k <;> rfl

/-- Taking nodes out that fail a test does not matter to whether one passes. -/
theorem any_filter_gone {test : NodeId → Bool} {ids : List NodeId}
    (plain : ∀ x ∈ ids, gone x = true → test x = false) :
    (ids.filter fun c => !gone c).any test = ids.any test := by
  rw [Bool.eq_iff_iff, List.any_eq_true, List.any_eq_true]
  constructor
  · rintro ⟨x, hx, passes⟩
    exact ⟨x, (List.mem_filter.1 hx).1, passes⟩
  · rintro ⟨x, hx, passes⟩
    refine ⟨x, List.mem_filter.2 ⟨hx, ?_⟩, passes⟩
    cases out : gone x with
    | false => rfl
    | true => rw [plain x hx out] at passes; cases passes

/-! ### Nodes that leave nothing behind -/

/-- Nodes of which nothing is written: each is the excluded one, or a comment when comments are not
asked for.  None is an element next to a document element, where line breaks would show it. -/
structure Unwritten (d : Document) (excluded : Option NodeId) (comments : Bool)
    (gone : NodeId → Bool) : Prop where
  skipped : ∀ x, gone x = true →
    excluded = some x ∨ comments = false ∧ ∃ content, d.kind? x = some (.comment content)
  inside : ∀ x p, gone x = true → d.isElement x = true → d.parent? x = some p →
    d.isDocument p = false

section Retain

variable {excluded : Option NodeId} {comments : Bool} {ids : List NodeId}
  {f g : Forest (NodeId × Kind)}

theorem hasElement_of_shows (hf : d.Shows ids f) : hasElement f = ids.any d.isElement := by
  induction hf with
  | nil => rfl
  | node hk _ _ _ ihNext =>
    rw [List.any_cons, isElement_of_kind? hk, ← ihNext]
    rfl

theorem hasElement_removing (plain : ∀ x ∈ ids, gone x = true → d.isElement x = false)
    (hf : d.Shows ids f) (hg : (d.removing gone).Shows (ids.filter fun c => !gone c) g) :
    hasElement g = hasElement f := by
  rw [hasElement_of_shows hf, hasElement_of_shows hg, isElement_removing, any_filter_gone plain]

/-- Line breaks depend on the siblings only outside the document element. -/
theorem framed_congr {place : Place} (siblings : place ≠ .inside → hasElement g = hasElement f)
    (piece : Piece Element) (rest : Forest (Piece Element)) :
    framed place piece g rest = framed place piece f rest := by
  cases place with
  | inside => rfl
  | outside before after =>
    have siblings := siblings (by intro eq; cases eq)
    simp only [framed, siblings]

namespace Unwritten

variable (h : d.Unwritten excluded comments gone)

include h

/-- Directly below a document node no element is removed. -/
theorem plain (linked : d.Linked) {p : NodeId} (document : d.isDocument p = true) :
    ∀ x ∈ d.children p, gone x = true → d.isElement x = false := by
  intro x hx out
  cases element : d.isElement x with
  | false => rfl
  | true =>
    have notDocument := h.inside x p out element (linked.mem_children_iff.1 hx)
    rw [document] at notDocument
    cases notDocument

/-- Nothing is written of such a node, and what follows it is written as if it were not there. -/
theorem retain_node {id : NodeId} {kind : Kind} (hk : d.kind? id = some kind)
    (out : gone id = true) {place : Place} (plain : place ≠ .inside → d.isElement id = false)
    (inner next : Forest (NodeId × Kind)) :
    retain excluded comments place (.node (id, kind) inner next) =
      retain excluded comments place next := by
  have stays : place.next kind = place := by
    cases place with
    | inside => rfl
    | outside before after =>
      have notElement := plain nofun
      rw [isElement_of_kind? hk] at notElement
      exact Document.next_of_not_isElement notElement _
  rw [Document.retain_node, stays]
  rcases h.skipped id out with excluded | ⟨silent, content, comment⟩
  · rw [if_pos excluded]
  · obtain rfl := Option.some.inj (hk.symm.trans comment)
    simp [silent]

end Unwritten

/-- Removing nodes of which nothing is written leaves what is written of all others. -/
theorem retain_removing (linked : d.Linked) (h : d.Unwritten excluded comments gone)
    {place : Place} (plain : place ≠ .inside → ∀ x ∈ ids, gone x = true → d.isElement x = false)
    (hf : d.Shows ids f) (hg : (d.removing gone).Shows (ids.filter fun c => !gone c) g) :
    retain excluded comments place g = retain excluded comments place f := by
  induction hf generalizing g place with
  | nil =>
    cases hg
    rfl
  | @node id kind ids inner next hk hi hn ihInner ihNext =>
    have later (outside : place ≠ .inside) : ∀ x ∈ ids, gone x = true → d.isElement x = false :=
      fun x hx => plain outside x (List.mem_cons_of_mem _ hx)
    cases out : gone id with
    | true =>
      rw [List.filter_cons_of_neg (by simp [out])] at hg
      rw [h.retain_node hk out fun outside => plain outside id List.mem_cons_self out]
      exact ihNext later hg
    | false =>
      rw [List.filter_cons_of_pos (by simp [out])] at hg
      obtain ⟨inner', next', rfl, hi', hn'⟩ := hg.cons_cases ((kind?_removing d gone id).trans hk)
      rw [children_removing] at hi'
      have next_ne (outside : place.next kind ≠ .inside) : place ≠ .inside := by
        rintro rfl
        exact outside rfl
      have siblings := fun outside => hasElement_removing (later outside) hn hn'
      rw [retain_node, retain_node, ihNext (fun outside => later (next_ne outside)) hn']
      cases kind with
      | document =>
        have document : d.isDocument id = true := by rw [isDocument, hk]; rfl
        rw [ihInner (fun _ => h.plain linked document) hi']
      | element e => rw [ihInner (fun ne => absurd rfl ne) hi']
      | text content => rfl
      | comment content => simp only [framed_congr siblings]
      | instruction target data => simp only [framed_congr siblings]

end Retain

/-! ### Canonical forms of what is left -/

section Siblings

variable {test : NodeId → Bool} {id : NodeId} {ids : List NodeId}
  (plain : ∀ x ∈ ids, gone x = true → test x = false) (hid : gone id = false)

include plain hid

theorem any_takeWhile_filter : ((ids.filter fun c => !gone c).takeWhile (· != id)).any test =
    (ids.takeWhile (· != id)).any test := by
  induction ids with
  | nil => rfl
  | cons x ids ih =>
    obtain ⟨here, plain⟩ := List.forall_mem_cons.1 plain
    cases out : gone x with
    | true =>
      have ne : x ≠ id := fun eq => by simp [eq, hid] at out
      rw [List.filter_cons_of_neg (by simp [out]), List.takeWhile_cons_of_pos (by simpa using ne),
        List.any_cons, here out, Bool.false_or, ih plain]
    | false =>
      rw [List.filter_cons_of_pos (by simp [out]), List.takeWhile_cons, List.takeWhile_cons]
      split
      · rw [List.any_cons, List.any_cons, ih plain]
      · rfl

theorem any_dropWhile_filter :
    (((ids.filter fun c => !gone c).dropWhile (· != id)).drop 1).any test =
      ((ids.dropWhile (· != id)).drop 1).any test := by
  induction ids with
  | nil => rfl
  | cons x ids ih =>
    obtain ⟨here, plain⟩ := List.forall_mem_cons.1 plain
    cases out : gone x with
    | true =>
      have ne : x ≠ id := fun eq => by simp [eq, hid] at out
      rw [List.filter_cons_of_neg (by simp [out]), List.dropWhile_cons_of_pos (by simpa using ne),
        ih plain]
    | false =>
      rw [List.filter_cons_of_pos (by simp [out]), List.dropWhile_cons, List.dropWhile_cons]
      split
      · exact ih plain
      · -- behind the node itself only nodes without the property were removed
        exact any_filter_gone plain

end Siblings

/-- Where a node stands depends on its kind and, next to a document element, on the elements around
it. -/
theorem place_congr {x : NodeId} (kind : d'.kind? x = d.kind? x)
    (parent : d'.parent? x = d.parent? x)
    (siblings : ∀ p, d.parent? x = some p → d'.isDocument p = d.isDocument p ∧
      (d.isDocument p = true →
        ((d'.children p).takeWhile (· != x)).any d'.isElement =
          ((d.children p).takeWhile (· != x)).any d.isElement ∧
        (((d'.children p).dropWhile (· != x)).drop 1).any d'.isElement =
          (((d.children p).dropWhile (· != x)).drop 1).any d.isElement)) :
    d'.place x = d.place x := by
  have outside (p : NodeId) (hp : d.parent? x = some p) :
      (if d'.isDocument p then Place.outside (((d'.children p).takeWhile (· != x)).any d'.isElement)
          ((((d'.children p).dropWhile (· != x)).drop 1).any d'.isElement) else .inside) =
        if d.isDocument p then Place.outside (((d.children p).takeWhile (· != x)).any d.isElement)
          ((((d.children p).dropWhile (· != x)).drop 1).any d.isElement) else .inside := by
    obtain ⟨document, around⟩ := siblings p hp
    rw [document]
    split
    · next hdoc => rw [(around hdoc).1, (around hdoc).2]
    · rfl
  rw [place, place, kind, parent]
  cases hp : d.parent? x with
  | none =>
    cases d.kind? x with
    | none => rfl
    | some k => cases k <;> rfl
  | some p =>
    cases d.kind? x with
    | none => rfl
    | some k =>
      cases k with
      | comment => exact outside p hp
      | instruction => exact outside p hp
      | _ => rfl

section Canonical

variable {apex : NodeId} (stays : d.Stays gone apex)

include stays

theorem Stays.parent?_removing : (d.removing gone).parent? apex = d.parent? apex := by
  rw [Document.parent?_removing, stays.not_gone]
  rfl

variable (linked : d.Linked)

include linked

theorem scopeAt_removing : (d.removing gone).scopeAt apex = d.scopeAt apex :=
  scopeAt_congr linked (linked.removing gone) apex fun _ above =>
    ⟨(stays.above above).parent?_removing, by rw [element?_removing]⟩

theorem scopeAround_removing : (d.removing gone).scopeAround apex = d.scopeAround apex := by
  rw [scopeAround, stays.parent?_removing, scopeAround]
  cases hp : d.parent? apex with
  | none => rfl
  | some p => exact scopeAt_removing (stays.parent hp) linked

theorem place_removing {excluded : Option NodeId} {comments : Bool}
    (h : d.Unwritten excluded comments gone) : (d.removing gone).place apex = d.place apex := by
  have hid := stays.not_gone
  refine place_congr (kind?_removing d gone apex) stays.parent?_removing ?_
  intro p hp
  refine ⟨by rw [isDocument, kind?_removing, isDocument], fun document => ?_⟩
  have beside := h.plain linked document
  rw [children_removing, isElement_removing]
  exact ⟨any_takeWhile_filter beside hid, any_dropWhile_filter beside hid⟩

/-- Removing nodes of which nothing is written leaves all canonical forms as they are. -/
theorem canonical_removing {excluded : Option NodeId} {comments : Bool}
    (h : d.Unwritten excluded comments gone) (inclusive : List String) :
    (d.removing gone).canonical apex excluded comments inclusive =
      d.canonical apex excluded comments inclusive := by
  rw [canonical, canonical, kind?_removing]
  cases hk : d.kind? apex with
  | none => rfl
  | some kind =>
    have single : [apex].filter (fun c => !gone c) = [apex] :=
      List.filter_cons_of_pos (by rw [stays.not_gone, Bool.not_false])
    have hg := shows_singleton (linked.removing gone) (by rwa [kind?_removing])
    rw [Document.rendered, Document.rendered, retained, retained, place_removing stays linked h,
      scopeAround_removing stays linked, retain_removing linked h ?_ (shows_singleton linked hk)
        (by rwa [single])]
    intro _ x hx out
    exact absurd .refl (List.mem_singleton.1 hx ▸ stays x out)

end Canonical

/-! ### Excluding a node -/

/-- Some rows are the same in two documents, and with a node also its parent and its children. -/
structure SharedRows (d d' : Document) (K : NodeId → Prop) : Prop where
  same : ∀ y, K y → d'.node? y = d.node? y
  up : ∀ y p, K y → d.parent? y = some p → K p
  down : ∀ y c, K y → c ∈ d.children y → K c

namespace SharedRows

variable {K : NodeId → Prop} (h : SharedRows d d' K) {a y : NodeId}

include h

theorem kind (hy : K y) : d'.kind? y = d.kind? y := by rw [kind?, h.same y hy, kind?]

theorem element (hy : K y) : d'.element? y = d.element? y := by rw [element?, h.kind hy, element?]

theorem parent (hy : K y) : d'.parent? y = d.parent? y := by rw [parent?, h.same y hy, parent?]

theorem children (hy : K y) : d'.children y = d.children y := by
  rw [Document.children, h.same y hy, Document.children]

theorem mem_of_below (linked : d.Linked) (ha : K a) (below : d.Below a y) : K y := by
  induction below with
  | refl => exact ha
  | @step p c hp _ ih => exact h.down p c ih (linked.mem_children_iff.2 hp)

theorem mem_of_above (hy : K y) (below : d.Below a y) : K a := by
  induction below with
  | refl => exact hy
  | @step p c hp _ ih => exact ih (h.up c p hy hp)

theorem scopeAround (linked : d.Linked) (linked' : d'.Linked) (hy : K y) :
    d'.scopeAround y = d.scopeAround y := by
  rw [Document.scopeAround, h.parent hy, Document.scopeAround]
  cases hp : d.parent? y with
  | none => rfl
  | some p =>
    refine scopeAt_congr linked linked' p fun a above => ?_
    have ha := h.mem_of_above (h.up y p hy hp) above
    exact ⟨h.parent ha, by rw [h.element ha]⟩

theorem place (hy : K y) : d'.place y = d.place y := by
  refine place_congr (h.kind hy) (h.parent hy) fun p hp => ?_
  have hKp := h.up y p hy hp
  have elements {cs : List NodeId} (sub : ∀ c ∈ cs, c ∈ d.children p) :
      cs.any d'.isElement = cs.any d.isElement := by
    induction cs with
    | nil => rfl
    | cons c cs ih =>
      obtain ⟨hc, sub⟩ := List.forall_mem_cons.1 sub
      rw [List.any_cons, List.any_cons, ih sub, isElement, h.element (h.down p c hKp hc), isElement]
  refine ⟨by rw [isDocument, h.kind hKp, isDocument], fun _ => ?_⟩
  rw [h.children hKp]
  exact ⟨elements fun c hc => (List.takeWhile_sublist _).subset hc,
    elements fun c hc => (List.dropWhile_sublist _).subset ((List.drop_sublist 1 _).subset hc)⟩

/-- A canonical form depends on shared rows only. -/
theorem canonical (linked : d.Linked) (linked' : d'.Linked) (hy : K y) (comments : Bool)
    (inclusive : List String) :
    d'.canonical y none comments inclusive = d.canonical y none comments inclusive := by
  have rows : SameRows d d' none [y] := by
    refine ⟨?_, ?_, nofun, nofun⟩
    · rintro x ⟨a, ha, hx⟩ -
      exact h.kind (h.mem_of_below linked hy (List.mem_singleton.1 ha ▸ hx))
    · rintro x ⟨a, ha, hx⟩ -
      exact h.children (h.mem_of_below linked hy (List.mem_singleton.1 ha ▸ hx))
  rw [Document.canonical, Document.canonical, h.kind hy]
  cases hk : d.kind? y with
  | none => rfl
  | some k =>
    rw [Document.rendered, Document.rendered, retained, retained, h.place hy,
      h.scopeAround linked linked' hy, rows.retain_eq linked comments _ (shows_singleton linked hk)
        (shows_singleton linked' (by rw [h.kind hy, hk]))]

end SharedRows

/-- A node of the table is not below another one. -/
def Outside (d : Document) (x y : NodeId) : Prop := y < d.size ∧ ¬ d.Below x y

section Outside

variable (linked : d.Linked) {x y p : NodeId}

include linked

theorem outside_parent (hp : d.parent? x = some p) : d.Outside x p := by
  have lt := linked.parent_lt hp
  refine ⟨Nat.lt_trans lt (lt_size_of_parent? hp), fun below => ?_⟩
  exact absurd (below.le linked) (Nat.not_le_of_lt lt)

theorem Outside.up (h : d.Outside x y) (hp : d.parent? y = some p) : d.Outside x p :=
  ⟨Nat.lt_trans (linked.parent_lt hp) h.1, fun below => h.2 (.step hp below)⟩

variable (same : ∀ y, d.Outside x y → d'.node? y = d.node? y)

include same

theorem not_below_of_outside (h : d.Outside x y) : ¬ d'.Below x y := by
  intro below
  induction below with
  | refl => exact h.2 .refl
  | @step q c hq _ ih =>
    rw [parent?, same c h, ← parent?] at hq
    exact ih (h.up linked hq)

/-- Without the node, the rows outside it are shared. -/
theorem sharedRows_removing :
    SharedRows (d.removing (· == x)) (d'.removing (· == x)) (d.Outside x) where
  same y hy := by rw [node?_removing, node?_removing, same y hy]
  up y q hy hq := by
    rw [parent?_removing] at hq
    split at hq
    · cases hq
    · exact hy.up linked hq
  down y c hy hc := by
    rw [children_removing] at hc
    obtain ⟨hc, ne⟩ := List.mem_filter.1 hc
    refine ⟨linked.child_lt_size hc, fun below => ?_⟩
    rcases below.cases_child linked hc with rfl | above
    · simp at ne
    · exact hy.2 above

end Outside

section Excluding

variable (linked : d.Linked) {x p apex : NodeId} (hp : d.parent? x = some p)
  (element : d.isElement p = true) (out : ¬ d.Below x apex)

include linked hp element out

/-- To exclude a child of an element is to remove it. -/
theorem canonical_eq_removing (comments : Bool) (inclusive : List String) :
    d.canonical apex (some x) comments inclusive =
      (d.removing (· == x)).canonical apex none comments inclusive := by
  have unwritten : d.Unwritten (some x) comments (· == x) := by
    refine ⟨fun y hy => .inl (by rw [eq_of_beq hy]), fun y q hy _ hq => ?_⟩
    rw [eq_of_beq hy, hp] at hq
    obtain rfl := Option.some.inj hq
    obtain ⟨e, he⟩ := isElement_iff.1 element
    rw [isDocument, kind?_of_element? he]
    rfl
  have stays : d.Stays (· == x) apex := by
    intro y hy
    rwa [eq_of_beq hy]
  rw [← canonical_removing stays linked unwritten, canonical, canonical]
  cases hk : (d.removing (· == x)).kind? apex with
  | none => rfl
  | some k =>
    have linked' := linked.removing (· == x)
    rw [Document.rendered, Document.rendered, retained, retained, retain_of_not_mem]
    rintro label hl eq
    -- what is left of `x` lies below no node but itself
    obtain ⟨a, ha, below⟩ := exists_below_of_shows linked' (shows_singleton linked' hk) hl
    rw [← Option.some.inj eq] at below
    obtain ⟨-, left⟩ := below_of_removing linked below (List.mem_singleton.1 ha ▸ stays)
    exact left x (beq_self_eq_true x) .refl

/-- What is below the excluded node does not matter. -/
theorem canonical_congr_of_excluding {d' : Document} (linked' : d'.Linked) (hapex : apex < d.size)
    (same : ∀ y, d.Outside x y → d'.node? y = d.node? y) (comments : Bool)
    (inclusive : List String) : d'.canonical apex (some x) comments inclusive =
      d.canonical apex (some x) comments inclusive := by
  have parent := same p (outside_parent linked hp)
  -- the second document has the excluded node at the same place
  have hp' : d'.parent? x = some p := by
    rw [← linked'.mem_children_iff, children, parent, ← children, linked.mem_children_iff]
    exact hp
  have element' : d'.isElement p = true := by
    rw [isElement, element?, kind?, parent, ← kind?, ← element?, ← isElement, element]
  have out' : ¬ d'.Below x apex := not_below_of_outside linked same ⟨hapex, out⟩
  rw [canonical_eq_removing linked hp element out, canonical_eq_removing linked' hp' element' out']
  exact (sharedRows_removing linked same).canonical (linked.removing _) (linked'.removing _)
    ⟨hapex, out⟩ comments inclusive

end Excluding

/-- **Exclusion is deletion.**  Let a child of an element be excluded from the canonical form of a
node that is not below it.  The form is that of the document without the excluded node, in which
every other node has its kind, its place and its other children.  Whatever is below the excluded
node makes no difference. -/
theorem canonical_excluding (hd : d.Reachable) {x p apex : NodeId} (hp : d.parent? x = some p)
    (element : d.isElement p = true) (out : ¬ d.Below x apex) (comments : Bool)
    (inclusive : List String) :
    (∀ y, (d.removing (· == x)).kind? y = d.kind? y ∧
      (d.removing (· == x)).parent? y = (if y = x then none else d.parent? y) ∧
      (d.removing (· == x)).children y = (d.children y).filter (· != x)) ∧
    d.canonical apex (some x) comments inclusive =
      (d.removing (· == x)).canonical apex none comments inclusive ∧
    ∀ d' : Document, d'.Reachable → (∀ y < d.size, ¬ d.Below x y → d'.node? y = d.node? y) →
      apex < d.size → d'.canonical apex (some x) comments inclusive =
        d.canonical apex (some x) comments inclusive := by
  have linked := hd.linked
  refine ⟨fun y => ⟨kind?_removing d _ y, ?_, children_removing d _ y⟩,
    canonical_eq_removing linked hp element out comments inclusive, ?_⟩
  · rw [parent?_removing]
    simp only [beq_iff_eq]
  · intro d' hd' same hapex
    exact canonical_congr_of_excluding linked hp element out hd'.linked hapex
      (fun y hy => same y hy.1 hy.2) comments inclusive

/-- An element with a signature between two others, on lines of their own. -/
def enveloped : Document := ofForest
  (.node (.element ⟨⟨none, "r", none⟩, [], [⟨"ds", "urn:ds"⟩]⟩)
    (.node (.element ⟨⟨none, "a", none⟩, [], []⟩) (.node (.text "1") .nil .nil)
      (.node (.text "\n") .nil
        (.node (.element ⟨⟨some "ds", "Signature", some "urn:ds"⟩, [], []⟩)
          (.node (.element ⟨⟨some "ds", "X", some "urn:ds"⟩, [], []⟩) .nil .nil)
          (.node (.text "\n") .nil
            (.node (.element ⟨⟨none, "b", none⟩, [], []⟩) (.node (.text "2") .nil .nil) .nil)))))
    .nil)

/-- `enveloped` with a text in its signature. -/
def envelopedText : Document := (enveloped.detachChildren 5).appendChild 5 (.text "t")

theorem canonical_excluding_enveloped :
    parse "<r xmlns:ds='urn:ds'><a>1</a>\n<ds:Signature><ds:X/></ds:Signature>\n<b>2</b></r>" =
      .ok enveloped ∧
    enveloped.setText 5 "t" = .ok envelopedText ∧
    (enveloped.removing (· == 5)).canonical 1 none false [] =
      .ok "<r><a>1</a>\n\n<b>2</b></r>" ∧
    enveloped.canonical 1 (some 5) false [] =
      (enveloped.removing (· == 5)).canonical 1 none false [] ∧
    envelopedText.canonical 1 (some 5) false [] = enveloped.canonical 1 (some 5) false [] := by
  have read : parse
      "<r xmlns:ds='urn:ds'><a>1</a>\n<ds:Signature><ds:X/></ds:Signature>\n<b>2</b></r>" =
      .ok enveloped := parse_eq_ok (by decide +kernel)
  have set : enveloped.setText 5 "t" = .ok envelopedText := rfl
  have reachable : enveloped.Reachable := .parse read
  have out : ¬ enveloped.Below 5 1 := fun below => absurd (below.le reachable.linked) (by decide)
  obtain ⟨-, same, unseen⟩ :=
    canonical_excluding reachable (x := 5) (p := 1) rfl rfl out false []
  refine ⟨read, set, canonical_eq_ok rfl (by decide +kernel), same,
    unseen envelopedText (reachable.setText set) ?_ (by decide)⟩
  intro y lt kept
  have rows : ∀ y < 10, y ≠ 5 → y ≠ 6 → envelopedText.node? y = enveloped.node? y := by
    decide +kernel
  refine rows y lt ?_ ?_
  · rintro rfl
    exact kept .refl
  · rintro rfl
    exact kept (.step (p := 5) rfl .refl)

end SamlSeal.Xml.Document
