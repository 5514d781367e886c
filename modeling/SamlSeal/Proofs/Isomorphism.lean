import Mathlib.Data.Set.Function
import Mathlib.Logic.Relation
import SamlSeal.Proofs.Arena
import SamlSeal.Proofs.Copies
import SamlSeal.Proofs.Footprint

/-!
# The numbering of nodes does not matter

A table holds more than its tree: the numbers of the nodes, and nodes that were taken out.  Nobody
who asks for texts, canonical forms or verdicts can tell.

* `Document.Isomorphic`: two documents have the same tree below node 0, under other numbers,
* `Isomorphic.indistinguishable`: then they are written alike, have the same canonical forms and are
  verified alike,
* `Call.Unseen`, `Aside.isomorphic`: calls on nodes that node 0 does not reach leave the tree as it
  is,
* `Differs.below`: and such nodes never come back, whatever calls follow.
-/

namespace SamlSeal.Xml

namespace Document

open Canonical

variable {d d' : Document} {φ : NodeId → NodeId}

/-! ### Isomorphic documents -/

/-- The nodes that two documents reach from node 0 correspond one to one, with the same kinds and
the same children in the same order. -/
structure Isomorphic (d d' : Document) (φ : NodeId → NodeId) : Prop where
  top : φ root = root
  bijective : Set.BijOn φ {x | d.Below root x} {y | d'.Below root y}
  kind : ∀ x, d.Below root x → d'.kind? (φ x) = d.kind? x
  children : ∀ x, d.Below root x → d'.children (φ x) = (d.children x).map φ

/-- Nothing that is written, canonicalized or verified tells two documents apart. -/
structure Indistinguishable (d d' : Document) (φ : NodeId → NodeId) : Prop where
  toXml : d'.toXml = d.toXml
  canonical : ∀ apex, d.Below root apex → ∀ excluded, (∀ s ∈ excluded, d.Below root s) →
    ∀ comments inclusive, d'.canonical (φ apex) (excluded.map φ) comments inclusive =
      d.canonical apex excluded comments inclusive
  verify : ∀ ctx, SamlSeal.verify ctx d' = SamlSeal.verify ctx d

section OfChildren

variable (linked : d.Linked) (linked' : d'.Linked) (top : φ root = root)
  (children : ∀ x, d.Below root x → d'.children (φ x) = (d.children x).map φ)

include linked linked' top children

theorem mapsTo_of_children : Set.MapsTo φ {x | d.Below root x} {y | d'.Below root y} := by
  intro x below
  induction below with
  | refl =>
    show d'.Below root (φ root)
    rw [top]
    exact .refl
  | @step p c hp below ih =>
    refine Below.child linked' ih ?_
    rw [children p below]
    exact List.mem_map_of_mem (linked.mem_children_iff.2 hp)

theorem surjOn_of_children : Set.SurjOn φ {x | d.Below root x} {y | d'.Below root y} := by
  intro y below
  induction below with
  | refl => exact ⟨root, .refl, top⟩
  | @step q c hq _ ih =>
    obtain ⟨p, hp, rfl⟩ := ih
    have mem := linked'.mem_children_iff.2 hq
    rw [children p hp] at mem
    obtain ⟨x, hx, rfl⟩ := List.mem_map.1 mem
    exact ⟨x, hp.child linked hx, rfl⟩

theorem injOn_of_children : Set.InjOn φ {x | d.Below root x} := by
  -- a child of the document is never the document itself
  have ne_root {p c : NodeId} (hp : d.parent? c = some p) (below : d.Below root p) :
      φ c ∈ d'.children (φ p) ∧ φ c ≠ φ root := by
    have mem : φ c ∈ d'.children (φ p) := by
      rw [children p below]
      exact List.mem_map_of_mem (linked.mem_children_iff.2 hp)
    rw [top]
    exact ⟨mem, linked'.child_ne_root mem⟩
  intro x hx y hy eq
  induction hx generalizing y with
  | refl =>
    rcases Below.cases_parent hy with same | ⟨q, hq, below⟩
    · exact same
    · exact absurd eq.symm (ne_root hq below).2
  | @step p c hp below ih =>
    rcases Below.cases_parent hy with rfl | ⟨q, hq, below'⟩
    · exact absurd eq (ne_root hp below).2
    · -- both have the same parent, and the children of one node stay apart
      have up := linked'.mem_children_iff.1 (ne_root hp below).1
      have up' := linked'.mem_children_iff.1 (ne_root hq below').1
      rw [eq, up'] at up
      obtain rfl := ih below' (Option.some.inj up).symm
      have nodup := linked'.nodup_children (φ p)
      rw [children p below] at nodup
      exact List.inj_on_of_nodup_map nodup (linked.mem_children_iff.2 hp)
        (linked.mem_children_iff.2 hq) eq

/-- That the nodes correspond one to one follows from their children. -/
theorem Isomorphic.of_children (kind : ∀ x, d.Below root x → d'.kind? (φ x) = d.kind? x) :
    Isomorphic d d' φ where
  top := top
  bijective := ⟨mapsTo_of_children linked linked' top children,
    injOn_of_children linked linked' top children, surjOn_of_children linked linked' top children⟩
  kind := kind
  children := children

end OfChildren

theorem kind_of_below (linked : d.Linked) {x : NodeId} (hx : d.Below root x) :
    ∃ k, d.kind? x = some k := by
  rcases hx.cases_parent with rfl | ⟨p, hp, -⟩
  · exact ⟨_, linked.root_kind⟩
  · exact kind?_of_lt (lt_size_of_parent? hp)

section Siblings

variable {ids : List NodeId} {x : NodeId} {test test' : NodeId → Bool}
  (inj : ∀ y ∈ ids, φ y = φ x → y = x) (same : ∀ y ∈ ids, test' (φ y) = test y)

include same in
theorem any_map_eq : (ids.map φ).any test' = ids.any test := by
  induction ids with
  | nil => rfl
  | cons y ids ih =>
    obtain ⟨here, same⟩ := List.forall_mem_cons.1 same
    rw [List.map_cons, List.any_cons, List.any_cons, here, ih same]

include inj in
theorem takeWhile_map_ne :
    (ids.map φ).takeWhile (· != φ x) = (ids.takeWhile (· != x)).map φ := by
  induction ids with
  | nil => rfl
  | cons y ids ih =>
    obtain ⟨here, inj⟩ := List.forall_mem_cons.1 inj
    by_cases eq : y = x
    · simp [eq]
    · have ne : φ y ≠ φ x := fun same => eq (here same)
      simp [eq, ne, ih inj]

include inj in
theorem dropWhile_map_ne :
    (ids.map φ).dropWhile (· != φ x) = (ids.dropWhile (· != x)).map φ := by
  induction ids with
  | nil => rfl
  | cons y ids ih =>
    obtain ⟨here, inj⟩ := List.forall_mem_cons.1 inj
    by_cases eq : y = x
    · simp [eq]
    · have ne : φ y ≠ φ x := fun same => eq (here same)
      simp [eq, ne, ih inj]

end Siblings

namespace Isomorphic

variable (iso : Isomorphic d d' φ) {x : NodeId}

include iso

theorem inj {y : NodeId} (hx : d.Below root x) (hy : d.Below root y) (eq : φ x = φ y) : x = y :=
  iso.bijective.injOn hx hy eq

theorem element (hx : d.Below root x) : d'.element? (φ x) = d.element? x := by
  rw [element?, element?, iso.kind x hx]

theorem isElement (hx : d.Below root x) : d'.isElement (φ x) = d.isElement x := by
  rw [Document.isElement, Document.isElement, iso.element hx]

variable (linked : d.Linked) (linked' : d'.Linked)

include linked

/-- What is below corresponding nodes is the same but for its positions, which correspond. -/
theorem shows {ids : List NodeId} {f : Forest (NodeId × Kind)} (h : d.Shows ids f)
    (seen : ∀ id ∈ ids, d.Below root id) : ∃ g, d'.Shows (ids.map φ) g ∧
      f.map Prod.snd = g.map Prod.snd ∧ Corresponds (fun x y => d.Below root x ∧ y = φ x) f g := by
  induction h with
  | nil => exact ⟨.nil, .nil, rfl, .nil⟩
  | @node id kind ids inner next hk _ _ ihInner ihNext =>
    obtain ⟨here, seen⟩ := List.forall_mem_cons.1 seen
    obtain ⟨g, hg, same, inside⟩ := ihInner fun c hc => here.child linked hc
    obtain ⟨g', hg', same', after⟩ := ihNext seen
    rw [← iso.children id here] at hg
    refine ⟨_, .node (by rw [iso.kind id here, hk]) hg hg', ?_,
      .node ⟨here, rfl⟩ (.refl kind) inside after⟩
    rw [Forest.map, Forest.map, same, same']

/-- Corresponding nodes see the same below them. -/
theorem mirrorsBelow : MirrorsBelow d d' fun x y => d.Below root x ∧ y = φ x where
  kind := by
    rintro x _ ⟨hx, rfl⟩
    obtain ⟨k, hk⟩ := kind_of_below linked hx
    exact ⟨k, k, hk, by rw [iso.kind x hx, hk], .refl k⟩
  children := by
    rintro x _ ⟨hx, rfl⟩
    rw [iso.children x hx]
    have all : List.Forall₂ (fun x y => d.Below root x ∧ y = φ x) (d.children x)
        ((d.children x).map φ) :=
      List.forall₂_map_right_iff.2 (List.forall₂_same.2 fun c hc => ⟨hx.child linked hc, rfl⟩)
    refine forall₂_filter all ?_
    rintro c _ ⟨hc, rfl⟩
    rw [iso.kind c hc]

include linked'

theorem parent (hx : d.Below root x) : d.parent? x = none ∧ d'.parent? (φ x) = none ∨
    ∃ p, d.parent? x = some p ∧ d'.parent? (φ x) = some (φ p) ∧ d.Below root p := by
  rcases hx.cases_parent with rfl | ⟨p, hp, below⟩
  · rw [iso.top]
    exact .inl ⟨linked.parent?_root, linked'.parent?_root⟩
  · have mem : φ x ∈ d'.children (φ p) := by
      rw [iso.children p below]
      exact List.mem_map_of_mem (linked.mem_children_iff.2 hp)
    exact .inr ⟨p, hp, linked'.mem_children_iff.1 mem, below⟩

theorem scopeAt_eq (hx : d.Below root x) : d'.scopeAt (φ x) = d.scopeAt x := by
  induction x using Nat.strongRecOn with
  | _ x ih =>
    have around : d'.scopeAround (φ x) = d.scopeAround x := by
      rw [scopeAround, scopeAround]
      rcases iso.parent linked linked' hx with ⟨none, none'⟩ | ⟨p, hp, hp', below⟩
      · rw [none, none']
      · rw [hp, hp']
        exact ih p (linked.parent_lt hp) below
    rw [Document.scopeAt_eq linked', Document.scopeAt_eq linked, around, iso.element hx]

theorem scopeAround_eq (hx : d.Below root x) : d'.scopeAround (φ x) = d.scopeAround x := by
  rw [scopeAround, scopeAround]
  rcases iso.parent linked linked' hx with ⟨none, none'⟩ | ⟨p, hp, hp', below⟩
  · rw [none, none']
  · rw [hp, hp']
    exact iso.scopeAt_eq linked linked' below

theorem place_eq (hx : d.Below root x) : d'.place (φ x) = d.place x := by
  rw [place, place, iso.kind x hx]
  rcases iso.parent linked linked' hx with ⟨none, none'⟩ | ⟨p, hp, hp', below⟩
  · rw [none, none']
    cases d.kind? x with
    | none => rfl
    | some k => cases k <;> rfl
  have inj : ∀ c ∈ d.children p, φ c = φ x → c = x :=
    fun c hc => iso.inj (below.child linked hc) hx
  have elements {cs : List NodeId} (sub : ∀ c ∈ cs, c ∈ d.children p) :
      (cs.map φ).any d'.isElement = cs.any d.isElement :=
    any_map_eq fun c hc => iso.isElement (below.child linked (sub c hc))
  have before := elements fun c hc => (List.takeWhile_sublist (· != x)).subset hc
  have after := elements fun c hc =>
    (List.dropWhile_sublist (· != x)).subset ((List.drop_sublist 1 _).subset hc)
  have document : d'.isDocument (φ p) = d.isDocument p := by
    rw [isDocument, isDocument, iso.kind p below]
  rw [hp, hp']
  cases d.kind? x with
  | none => rfl
  | some k =>
    cases k with
    | comment | instruction =>
      dsimp only
      rw [iso.children p below, takeWhile_map_ne inj, dropWhile_map_ne inj, ← List.map_drop, before,
        after, document]
    | _ => rfl

theorem canonical_eq (hx : d.Below root x) {excluded : Option NodeId}
    (hs : ∀ s ∈ excluded, d.Below root s) (comments : Bool) (inclusive : List String) :
    d'.canonical (φ x) (excluded.map φ) comments inclusive =
      d.canonical x excluded comments inclusive := by
  obtain ⟨k, hk⟩ := kind_of_below linked hx
  have hk' : d'.kind? (φ x) = some k := by rw [iso.kind x hx, hk]
  have seen : ∀ y ∈ [x], d.Below root y := fun y hy => List.mem_singleton.1 hy ▸ hx
  obtain ⟨g, hg, -, forests⟩ := iso.shows linked (shows_singleton linked hk) seen
  have same {y z : NodeId} (h : d.Below root y ∧ z = φ y) :
      excluded.map φ = some z ↔ excluded = some y := by
    obtain ⟨hy, rfl⟩ := h
    cases excluded with
    | none => simp
    | some s =>
      rw [Option.map_some, Option.some.injEq, Option.some.injEq]
      exact ⟨iso.inj (hs s rfl) hy, congrArg φ⟩
  rw [canonical, canonical, hk, hk', Document.rendered, Document.rendered, retained, retained,
    iso.place_eq linked linked' hx, iso.scopeAround_eq linked linked' hx,
    (shows_singleton linked' hk').unique hg, forests.write_retain same]
  rfl

theorem toXml_eq : d'.toXml = d.toXml := by
  obtain ⟨g, hg, same, -⟩ :=
    iso.shows linked (shows_children linked root) fun c hc => Below.refl.child linked hc
  rw [← iso.children root .refl, iso.top] at hg
  exact toXml_eq_of_sameTrees linked linked' ⟨_, _, shows_children linked root, hg, same⟩

theorem faithful : Faithful d d' fun x y => d.Below root x ∧ y = φ x where
  below := iso.mirrorsBelow linked
  top := ⟨.refl, iso.top.symm⟩
  parent := by
    rintro x _ ⟨hx, rfl⟩
    rcases iso.parent linked linked' hx with none | ⟨p, hp, hp', below⟩
    · exact .inl none
    · exact .inr ⟨p, φ p, hp, hp', below, rfl⟩
  form := by
    rintro x _ ⟨hx, rfl⟩ excluded excluded' hs comments inclusive
    obtain ⟨seen, rfl⟩ : (∀ s ∈ excluded, d.Below root s) ∧ excluded' = excluded.map φ := by
      rcases rel_cases hs with ⟨rfl, rfl⟩ | ⟨s, _, rfl, rfl, below, rfl⟩
      · simp
      · simpa using below
    exact iso.canonical_eq linked linked' hx seen comments inclusive

theorem indistinguishable : Indistinguishable d d' φ where
  toXml := iso.toXml_eq linked linked'
  canonical _ hx _ hs := iso.canonical_eq linked linked' hx hs
  verify := (iso.faithful linked linked').verify_eq

end Isomorphic

/-! ### Nodes out of reach -/

theorem Isomorphic.trans {d'' : Document} {ψ : NodeId → NodeId} (h : Isomorphic d d' φ)
    (h' : Isomorphic d' d'' ψ) : Isomorphic d d'' (ψ ∘ φ) where
  top := (congrArg ψ h.top).trans h'.top
  bijective := h'.bijective.comp h.bijective
  kind x hx := (h'.kind _ (h.bijective.mapsTo hx)).trans (h.kind x hx)
  children x hx := by
    rw [Function.comp_apply, h'.children _ (h.bijective.mapsTo hx), h.children x hx, List.map_map]

theorem Differs.appendChild {parent : NodeId} (hp : parent < d.size) (kind : Kind) :
    d.Differs (d.appendChild parent kind) (fun _ => False) (· = parent) where
  size := by simp
  kind x lt _ := kind?_appendChild lt parent kind
  children x _ out := by rw [children_appendChild_eq hp, if_neg out]
  parent x lt _ := parent?_appendChild lt parent kind
  unmoved p x mem lt := by
    rw [children_appendChild_eq hp] at mem
    split at mem
    · rcases List.mem_append.1 mem with mem | new
      · exact mem
      · exact absurd (List.mem_singleton.1 new) (Nat.ne_of_lt lt)
    · exact mem

/-- No change brings a node back that was out of reach. -/
theorem Differs.below {kinds contents : NodeId → Prop} (h : d.Differs d' kinds contents)
    (linked : d.Linked) (linked' : d'.Linked) {x : NodeId} (lt : x < d.size)
    (below : d'.Below root x) : d.Below root x := by
  induction below with
  | refl => exact .refl
  | @step p c hp _ ih =>
    have mem := h.unmoved p c (linked'.mem_children_iff.2 hp) lt
    exact (ih (Nat.lt_trans (linked.child_lt mem) lt)).child linked mem

/-- The node that a call is about.  Signing is about many. -/
def Call.target? : Call → Option NodeId
  | appendChild parent _ => some parent
  | setAttribute id .. => some id
  | setText id _ => some id
  | sign .. => none

/-- A call is about a node that node 0 does not reach. -/
def Call.Unseen (d : Document) (c : Call) : Prop :=
  c.Allowed d ∧ ∃ x ∈ c.target?, ¬ d.Below root x

/-- A document comes from another one by a call that is admitted. -/
def Follows (admitted : Document → Call → Prop) (d d' : Document) : Prop :=
  ∃ c outcome, admitted d c ∧ c.run d = some (d', outcome)

/-- A document comes from another one by any calls. -/
def Later : Document → Document → Prop := Relation.ReflTransGen (Follows fun d c => c.Allowed d)

/-- A document comes from another one by calls about nodes that node 0 does not reach. -/
def Aside : Document → Document → Prop := Relation.ReflTransGen (Follows fun d c => c.Unseen d)

theorem Differs.leave {kinds contents : NodeId → Prop} {change : Except Fault Document}
    (h : ∀ {d'}, change = .ok d' → d.Differs d' kinds contents) :
    d.Differs (d.leave change).1 kinds contents := by
  cases change with
  | ok d' => exact h rfl
  | error e => exact .refl d

section Run

variable (linked : d.Linked) {c : Call} {outcome : Except Fault Unit} (allowed : c.Allowed d)
  (h : c.run d = some (d', outcome))

include linked allowed h

/-- A call changes nothing but the node that it is about. -/
theorem Call.differs_at {x : NodeId} (hx : c.target? = some x) :
    d.Differs d' (· = x) (· = x) := by
  cases c with
  | appendChild parent kind =>
    obtain rfl := Option.some.inj hx
    obtain rfl := congrArg Prod.fst (Option.some.inj h)
    exact (Differs.appendChild allowed kind).mono (fun _ => False.elim) fun _ eq => eq
  | setAttribute id name value =>
    obtain rfl := Option.some.inj hx
    obtain rfl := congrArg Prod.fst (Option.some.inj h)
    exact .leave fun set => (Differs.setAttribute set).mono (fun _ eq => eq) fun _ => False.elim
  | setText id content =>
    obtain rfl := Option.some.inj hx
    rw [Call.run, setTextRows_eq linked] at h
    obtain rfl := congrArg Prod.fst (Option.some.inj h)
    exact .leave fun set => (Differs.setText set).mono (fun _ => False.elim) fun _ eq => eq
  | sign => cases hx

theorem Call.differs : d.Differs d' (fun _ => True) fun _ => True := by
  cases c with
  | sign ctx id issueInstant =>
    obtain rfl := congrArg Prod.fst (Option.some.inj h)
    refine sign_keeps (Q := fun d' => d.Differs d' (fun _ => True) fun _ => True)
      (fun before set => ?_) (fun before set => ?_) (.refl d) ctx id issueInstant
    · exact before.trans ((Differs.setAttribute set).mono (fun _ _ => trivial) fun _ => False.elim)
    · exact before.trans ((Differs.setText set).mono (fun _ => False.elim) fun _ _ => trivial)
  | _ => exact (differs_at linked allowed h rfl).mono (fun _ _ => trivial) fun _ _ => trivial

end Run

/-- A call about a node out of reach leaves what node 0 reaches as it is. -/
theorem Call.Unseen.isomorphic (hd : d.Reachable) {c : Call} {outcome : Except Fault Unit}
    (unseen : c.Unseen d) (h : c.run d = some (d', outcome)) : Isomorphic d d' id := by
  obtain ⟨allowed, x, hx, out⟩ := unseen
  have differs := Call.differs_at hd.linked allowed h hx
  have other {y : NodeId} (hy : d.Below root y) : y < d.size ∧ y ≠ x := by
    obtain ⟨k, hk⟩ := kind_of_below hd.linked hy
    exact ⟨lt_size_of_kind? hk, fun eq => out (eq ▸ hy)⟩
  refine .of_children hd.linked (hd.call allowed h).linked rfl (fun y hy => ?_) fun y hy => ?_
  · rw [List.map_id]
    exact differs.children y (other hy).1 (other hy).2
  · exact differs.kind y (other hy).1 (other hy).2

/-- What happens out of reach leaves what node 0 reaches as it is. -/
theorem Aside.isomorphic (hd : d.Reachable) (h : d.Aside d') :
    d'.Reachable ∧ Isomorphic d d' id := by
  induction h with
  | refl =>
    exact ⟨hd, rfl, Set.bijOn_id _, fun _ _ => rfl, fun _ _ => (List.map_id _).symm⟩
  | tail _ step ih =>
    obtain ⟨c, outcome, unseen, run⟩ := step
    obtain ⟨reachable, iso⟩ := ih
    exact ⟨reachable.call unseen.1 run, iso.trans (unseen.isomorphic reachable run)⟩

/-- Whatever calls follow, no node is moved. -/
theorem Later.differs (hd : d.Reachable) (h : d.Later d') :
    d'.Reachable ∧ d.Differs d' (fun _ => True) fun _ => True := by
  induction h with
  | refl => exact ⟨hd, .refl d⟩
  | tail _ step ih =>
    obtain ⟨c, outcome, allowed, run⟩ := step
    obtain ⟨reachable, differs⟩ := ih
    exact ⟨reachable.call allowed run, differs.trans (Call.differs reachable.linked allowed run)⟩

/-- What was inside an element is out of reach once the element got a text. -/
theorem not_below_of_setText (linked : d.Linked) {id c x : NodeId} {content : String}
    (h : d.setText id content = .ok d') (hc : c ∈ d.children id) (hx : d.Below c x) :
    x < d.size ∧ ¬ d'.Below root x := by
  induction hx with
  | refl =>
    have lt := linked.child_lt_size hc
    refine ⟨lt, fun below => ?_⟩
    rcases below.cases_parent with eq | ⟨p, hp, -⟩
    · exact linked.child_ne_root hc eq.symm
    · rw [parent?_setText h lt, if_pos hc] at hp
      cases hp
  | @step p x hp _ ih =>
    have lt := lt_size_of_parent? hp
    refine ⟨lt, fun below => ?_⟩
    rcases below.cases_parent with rfl | ⟨q, hq, below⟩
    · cases linked.parent?_root.symm.trans hp
    · rw [parent?_setText h lt] at hq
      split at hq
      · cases hq
      · obtain rfl := Option.some.inj (hp.symm.trans hq)
        exact ih.2 below

/-- The numbers of nodes do not matter, nor do nodes that node 0 does not reach.  Isomorphic
documents are written alike, have the same canonical forms, and are verified alike.  When an element
gets a text, what was inside it is out of reach for good, whatever calls follow; and whatever is
done out of reach changes nothing. -/
theorem indistinguishable_of_isomorphic (hd : d.Reachable) :
    (∀ d' φ, d'.Reachable → d.Isomorphic d' φ → d.Indistinguishable d' φ) ∧
    ∀ id content d₁, d.setText id content = .ok d₁ → ∀ d₂, d₁.Later d₂ →
      (∀ c ∈ d.children id, ∀ x, d.Below c x → x < d₂.size ∧ ¬ d₂.Below root x) ∧
      ∀ d₃, d₂.Aside d₃ → d₂.Indistinguishable d₃ fun x => x := by
  refine ⟨fun d' φ hd' iso => iso.indistinguishable hd.linked hd'.linked, ?_⟩
  intro id content d₁ set d₂ later
  have hd₁ : d₁.Reachable := .setText hd set
  obtain ⟨hd₂, differs⟩ := later.differs hd₁
  constructor
  · intro c hc x hx
    obtain ⟨lt, out⟩ := not_below_of_setText hd.linked set hc hx
    have lt₁ := Nat.lt_of_lt_of_le lt (Differs.setText set).size
    exact ⟨Nat.lt_of_lt_of_le lt₁ differs.size,
      fun below => out (differs.below hd₁.linked hd₂.linked lt₁ below)⟩
  · intro d₃ aside
    obtain ⟨hd₃, iso⟩ := aside.isomorphic hd₂
    exact iso.indistinguishable hd₂.linked hd₃.linked

/-- The tree of `severed` and of `regrown`, just read. -/
def flat : Document := ofForest
  (.node (.element ⟨⟨none, "a", none⟩, [], []⟩) (.node (.text "t") .nil .nil) .nil)

/-- An element that was taken out gets a text.  The document is still that of `<a>t</a>`. -/
theorem indistinguishable_regrown : parse "<a><b/></a>" = .ok stacked ∧
    parse "<a>t</a>" = .ok flat ∧ stacked.setText 1 "t" = .ok severed ∧
    (Call.appendChild 2 (.text "u")).run severed = some (regrown, .ok ()) ∧
    severed.Indistinguishable regrown (fun x => x) ∧
    flat.Indistinguishable regrown fun x => if x = 2 then 3 else x := by
  have read : parse "<a><b/></a>" = .ok stacked := parse_eq_ok (by decide +kernel)
  have read' : parse "<a>t</a>" = .ok flat := parse_eq_ok (by decide +kernel)
  have cut : stacked.setText 1 "t" = .ok severed := rfl
  have grown : (Call.appendChild 2 (.text "u")).run severed = some (regrown, .ok ()) := rfl
  have unseen := (indistinguishable_of_isomorphic (.parse read)).2 1 "t" severed cut severed .refl
  have out := unseen.1 2 (by decide) 2 .refl
  have reachable : regrown.Reachable := .appendChild (.setText (.parse read) cut) out.1 _
  have iso : flat.Isomorphic regrown fun x => if x = 2 then 3 else x := by
    have linked := (Reachable.parse read').linked
    have rows : ∀ x < 3, regrown.children (if x = 2 then 3 else x) =
        (flat.children x).map (fun x => if x = 2 then 3 else x) ∧
        regrown.kind? (if x = 2 then 3 else x) = flat.kind? x := by decide
    have old {x : NodeId} (below : flat.Below root x) : x < 3 := by
      obtain ⟨k, hk⟩ := kind_of_below linked below
      exact lt_size_of_kind? hk
    exact .of_children linked reachable.linked rfl (fun x below => (rows x (old below)).1)
      fun x below => (rows x (old below)).2
  have aside : severed.Aside regrown :=
    .single ⟨.appendChild 2 (.text "u"), .ok (), ⟨out.1, 2, rfl, out.2⟩, grown⟩
  refine ⟨read, read', cut, grown, unseen.2 regrown aside, ?_⟩
  exact (indistinguishable_of_isomorphic (.parse read')).1 regrown _ reachable iso

end Document

end SamlSeal.Xml
