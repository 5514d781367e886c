import Mathlib.Data.List.Nodup
import SamlSeal.Proofs.Numbering
import SamlSeal.Proofs.Rows
import SamlSeal.Proofs.Signing

/-!
# The table of a document

A document says twice which nodes are below which: a row names its parent and lists its children.
Whatever calls made a document, the two agree.

* `Call`, `Call.run`: the calls that change a document, with what they leave behind if they fail,
* `Made`: the documents that come from reading or from nothing by any calls,
* `Arena`: what holds of their rows,
* `Walkable`: so that every walk over them, upwards or downwards, comes to an end.

Setting a text looks up rows without asking whether they are there.  `setTextRows` is that
procedure, which has no result if a row is missing; `setTextRows_eq` says that none ever is.  To
write a canonical form row by row is a fault if a row is missing, and `Walkable` says that none is.
-/

namespace SamlSeal.Xml.Document

variable {d d' : Document}

/-! ### Setting a text, row by row -/

/-- Takes a row's parent away, if there is the row. -/
def orphan? (d : Document) (c : NodeId) : Option Document :=
  (d.node? c).map fun _ => ⟨d.nodes.modify c fun n => { n with parent := none }⟩

/-- What a change leaves behind: a change that fails leaves the document as it was. -/
def leave (d : Document) : Except Fault Document → Document × Except Fault Unit
  | .ok d' => (d', .ok ())
  | .error e => (d, .error e)

/-- Sets a text row by row.  There is no result if a row is looked up that does not exist. -/
def setTextRows (d : Document) (id : NodeId) (content : String) :
    Option (Document × Except Fault Unit) :=
  match d.element? id with
  | none => some (d, .error (.notAnElement id))
  | some _ => do
    let row ← d.node? id
    let emptied ← row.children.foldlM orphan? ⟨d.nodes.modify id fun n => { n with children := [] }⟩
    some (if content = "" then emptied else emptied.appendChild id (.text content), .ok ())

theorem foldlM_orphan? (cs : List NodeId) (ns : Array Node) (h : ∀ c ∈ cs, c < ns.size) :
    cs.foldlM orphan? ⟨ns⟩ =
      some ⟨cs.foldl (fun ns c => ns.modify c fun n => { n with parent := none }) ns⟩ := by
  induction cs generalizing ns with
  | nil => rfl
  | cons c cs ih =>
    obtain ⟨here, later⟩ := List.forall_mem_cons.1 h
    have found : orphan? ⟨ns⟩ c = some ⟨ns.modify c fun n => { n with parent := none }⟩ := by
      rw [orphan?, node?, Array.getElem?_eq_getElem here]
      rfl
    rw [List.foldlM_cons, found]
    exact ih _ fun c hc => by simpa using later c hc

/-- No row is missing when a text is set. -/
theorem setTextRows_eq (linked : d.Linked) (id : NodeId) (content : String) :
    d.setTextRows id content = some (d.leave (d.setText id content)) := by
  rw [setTextRows, setText]
  cases he : d.element? id with
  | none => rfl
  | some e =>
    obtain ⟨row, hrow⟩ := node?_isSome (lt_size_of_element? he)
    have children : d.children id = row.children := by rw [Document.children, hrow]
    have detached : row.children.foldlM orphan?
        ⟨d.nodes.modify id fun n => { n with children := [] }⟩ = some (d.detachChildren id) := by
      rw [foldlM_orphan?, detachChildren, children]
      intro c hc
      rw [Array.size_modify]
      exact linked.child_lt_size (children ▸ hc)
    simp only [hrow, bind, Option.bind_some, detached]
    rfl

/-! ### Calls -/

/-- A call that changes a document. -/
inductive Call where
  | appendChild (parent : NodeId) (kind : Kind)
  | setAttribute (id : NodeId) (name value : String)
  | setText (id : NodeId) (content : String)
  | sign (ctx : Context) (id issueInstant : String)

/-- A node is only added below one that exists.  Every other call may fail. -/
def Call.Allowed (d : Document) : Call → Prop
  | appendChild parent _ => parent < d.size
  | _ => True

/-- What a call leaves behind, and whether it failed.  There is no result if it looks up a row that
does not exist. -/
def Call.run (d : Document) : Call → Option (Document × Except Fault Unit)
  | appendChild parent kind => some (d.appendChild parent kind, .ok ())
  | setAttribute id name value => some (d.leave (d.setAttribute id name value))
  | setText id content => d.setTextRows id content
  | sign ctx id issueInstant =>
    let signing := SamlSeal.sign ctx d id issueInstant
    some (signing.document, signing.trace.outcome)

/-- The documents that calls make of the empty one or of one that was read. -/
inductive Made : Document → Prop
  | empty : Made empty
  | parse {text : String} {d : Document} (h : parse text = .ok d) : Made d
  | call {d d' : Document} (made : Made d) {c : Call} (allowed : c.Allowed d)
    {outcome : Except Fault Unit} (h : c.run d = some (d', outcome)) : Made d'

theorem Reachable.leave (hd : d.Reachable) {change : Except Fault Document}
    (reachable : ∀ {d'}, change = .ok d' → d'.Reachable) : (d.leave change).1.Reachable := by
  cases change with
  | ok d' => exact reachable rfl
  | error e => exact hd

/-- What one call makes of a document can be made by changes that go through. -/
theorem Reachable.call (hd : d.Reachable) {c : Call} (allowed : c.Allowed d)
    {outcome : Except Fault Unit} (h : c.run d = some (d', outcome)) : d'.Reachable := by
  cases c with
  | appendChild parent kind =>
    obtain rfl := congrArg Prod.fst (Option.some.inj h)
    exact hd.appendChild allowed kind
  | setAttribute id name value =>
    obtain rfl := congrArg Prod.fst (Option.some.inj h)
    exact hd.leave fun set => hd.setAttribute set
  | setText id content =>
    rw [Call.run, setTextRows_eq hd.linked] at h
    obtain rfl := congrArg Prod.fst (Option.some.inj h)
    exact hd.leave fun set => hd.setText set
  | sign ctx id issueInstant =>
    obtain rfl := congrArg Prod.fst (Option.some.inj h)
    exact sign_keeps (fun hd set => .setAttribute hd set) (fun hd set => .setText hd set) hd ctx id
      issueInstant

theorem Made.reachable (made : d.Made) : d.Reachable := by
  induction made with
  | empty => exact .empty
  | parse h => exact .parse h
  | call _ allowed h ih => exact ih.call allowed h

/-! ### The rows of a document -/

/-- Parents and children say the same: the children of a node exist, come later than it in ascending
order, and have it as their parent, and whoever has it as parent is listed once. -/
structure Arena (d : Document) : Prop where
  root_kind : d.kind? root = some .document
  root_parent : d.parent? root = none
  child : ∀ p, ∀ c ∈ d.children p, c < d.size ∧ d.parent? c = some p ∧ p < c
  ascending : ∀ p, (d.children p).Pairwise (· < ·)
  listed : ∀ c p, d.parent? c = some p → (d.children p).count c = 1

theorem Linked.arena (linked : d.Linked) : d.Arena where
  root_kind := linked.root_kind
  root_parent := linked.parent?_root
  child _ _ hc := ⟨linked.child_lt_size hc, linked.mem_children_iff.1 hc, linked.child_lt hc⟩
  ascending := linked.sorted
  listed _ p hp :=
    List.count_eq_one_of_mem (linked.nodup_children p) (linked.mem_children_iff.2 hp)

/-- A walk upwards or downwards ends, so that the functions that walk need not count their steps:
they are the recursions over parents and over children.  Every node has a canonical form, and the
walk that writes it row by row ends and misses no row. -/
structure Walkable (d : Document) : Prop where
  upwards : WellFounded fun p c => d.parent? c = some p
  downwards : WellFounded fun c p => c ∈ d.children p
  lineage : ∀ id, d.lineage id = id :: match d.parent? id with
    | some p => d.lineage p
    | none => []
  view : ∀ id ids, d.view (id :: ids) = match d.kind? id with
    | some kind => .node (id, kind) (d.view (d.children id)) (d.view ids)
    | none => d.view ids
  canonical : ∀ apex < d.size, ∀ excluded comments inclusive, ∃ form,
    d.canonical apex excluded comments inclusive = .ok form ∧
      d.canonicalRows apex excluded comments inclusive = some (.ok form)

/-- The children of a node are above it in the table, so there are fewer and fewer of them left. -/
theorem wellFounded_children (linked : d.Linked) : WellFounded fun c p => c ∈ d.children p := by
  have later {c p : NodeId} (h : c ∈ d.children p) : d.size - c < d.size - p := by
    have lt := linked.child_lt h
    have bound := linked.child_lt_size h
    omega
  exact Subrelation.wf later (measure fun id => d.size - id).wf

theorem view_cons (linked : d.Linked) (id : NodeId) (ids : List NodeId) :
    d.view (id :: ids) = match d.kind? id with
      | some kind => .node (id, kind) (d.view (d.children id)) (d.view ids)
      | none => d.view ids := by
  obtain ⟨n, hn⟩ : ∃ n, d.size = n + 1 := ⟨d.size - 1, by have := linked.size_pos; omega⟩
  -- one step less is enough for the children, as they come later in the table
  have inner : view.go d n (d.children id) = d.view (d.children id) := by
    refine (view_go_shows linked fun c hc => ?_).unique (shows_children linked id)
    have lt := linked.child_lt hc
    exact ⟨linked.child_lt_size hc, by omega⟩
  have outer (ids : List NodeId) : d.view ids = view.go d (n + 1) ids := by rw [view, hn]
  rw [outer (id :: ids), view.go, List.foldr_cons, inner]
  cases d.kind? id with
  | none => exact (outer ids).symm
  | some kind => exact congrArg (Forest.node (id, kind) _) (outer ids).symm

theorem Linked.walkable (linked : d.Linked) : d.Walkable where
  upwards := Subrelation.wf linked.parent_lt Nat.lt_wfRel.wf
  downwards := wellFounded_children linked
  lineage := lineage_eq linked
  view := view_cons linked
  canonical apex lt excluded comments inclusive := by
    obtain ⟨kind, hk⟩ := kind?_of_lt lt
    obtain ⟨form, h⟩ : ∃ form, d.canonical apex excluded comments inclusive = .ok form :=
      ⟨_, canonical_eq_ok (by rw [hk]; rfl) rfl⟩
    exact ⟨form, h, by rw [canonicalRows_eq linked, h]⟩

/-- The nodes of a document that was read are numbered in the order in which they are written. -/
theorem labels_view_of_parse {text : String} (h : parse text = .ok d) :
    (d.view [root]).labels.map Prod.fst = List.range d.size := by
  obtain ⟨-, f, -, -, rfl⟩ := parse_cases h
  have linked := Linked.ofForest f
  rw [view_singleton linked linked.root_kind, view_ofForest, size_ofForest, Forest.labels,
    Forest.labels, List.append_nil, List.map_cons, Forest.labels_number,
    List.map_fst_zip (by simp), Nat.add_comm, List.range_eq_range', List.range'_succ]
  rfl

/-- Whatever calls made a document, its rows make a tree, every walk over it ends, and no call looks
up a row that is missing.  A call that fails to set an attribute or a text leaves the document as it
was.  In a document that was just read, all nodes are below node 0, in the order of their
numbers. -/
theorem made_arena (made : d.Made) :
    d.Arena ∧ d.Walkable ∧ (∀ c : Call, ∃ left, c.run d = some left) ∧
    (∀ id name value d' e, (Call.setAttribute id name value).run d = some (d', .error e) → d' = d) ∧
    (∀ id content d' e, (Call.setText id content).run d = some (d', .error e) → d' = d) ∧
    ∀ text, parse text = .ok d → (d.view [root]).labels.map Prod.fst = List.range d.size := by
  have linked := made.reachable.linked
  have unchanged {change : Except Fault Document} {d' : Document} {e : Fault}
      (h : some (d.leave change) = some (d', .error e)) : d' = d := by
    cases change with
    | ok => cases h
    | error => exact (congrArg Prod.fst (Option.some.inj h)).symm
  refine ⟨linked.arena, linked.walkable, fun c => ?_, fun id name value d' e h => unchanged h,
    fun id content d' e h => ?_, fun text h => labels_view_of_parse h⟩
  · cases c with
    | setText id content => exact ⟨_, setTextRows_eq linked id content⟩
    | _ => exact ⟨_, rfl⟩
  · rw [Call.run, setTextRows_eq linked] at h
    exact unchanged h

/-- An element inside another one. -/
def stacked : Document := ofForest
  (.node (.element ⟨⟨none, "a", none⟩, [], []⟩)
    (.node (.element ⟨⟨none, "b", none⟩, [], []⟩) .nil .nil) .nil)

/-- `stacked` after the outer element got a text, so that the inner one was taken out. -/
def severed : Document := ⟨#[
  ⟨.document, none, [1]⟩,
  ⟨.element ⟨⟨none, "a", none⟩, [], []⟩, some 0, [3]⟩,
  ⟨.element ⟨⟨none, "b", none⟩, [], []⟩, none, []⟩,
  ⟨.text "t", some 1, []⟩]⟩

/-- `severed` after the element that was taken out got a text as well. -/
def regrown : Document := severed.appendChild 2 (.text "u")

theorem made_arena_regrown : parse "<a><b/></a>" = .ok stacked ∧
    (Call.setText 1 "t").run stacked = some (severed, .ok ()) ∧
    (Call.appendChild 2 (.text "u")).run severed = some (regrown, .ok ()) ∧
    (Call.setText 4 "v").run regrown = some (regrown, .error (.notAnElement 4)) ∧
    regrown.Arena ∧ regrown.Walkable := by
  have read : parse "<a><b/></a>" = .ok stacked := parse_eq_ok (by decide +kernel)
  have cut : (Call.setText 1 "t").run stacked = some (severed, .ok ()) := rfl
  have grown : (Call.appendChild 2 (.text "u")).run severed = some (regrown, .ok ()) := rfl
  have inside : (Call.appendChild 2 (.text "u")).Allowed severed := by
    show 2 < 4
    decide
  have made : severed.Made := .call (.parse read) (c := .setText 1 "t") trivial cut
  obtain ⟨arena, walkable, -⟩ := made_arena (.call made inside grown)
  exact ⟨read, cut, grown, rfl, arena, walkable⟩

end SamlSeal.Xml.Document
