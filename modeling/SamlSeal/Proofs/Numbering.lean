import Mathlib.Data.List.Forall2
import SamlSeal.Proofs.View

/-!
# Numbering

A document that was read is a table made from a forest.  Its nodes are numbered in the order in
which they are written, node 0 standing in front of them:

* `Forest.number`: a forest with numbers at its labels,
* `view_ofForest`: the table shows the numbered forest below node 0,
* `getElem?_withScope`: the bindings in force around a node are found by walking down the forest
  (`Forest.withScope`).
-/

namespace SamlSeal.Xml

namespace Forest

variable {α : Type}

/-- Numbers the labels in the order in which the trees are written. -/
def number (k : Nat) : Forest α → Forest (Nat × α)
  | nil => nil
  | node a inner next =>
    node (k, a) (inner.number (k + 1)) (next.number (k + 1 + inner.labels.length))

/-- The positions of the trees themselves, not of what is inside them. -/
def heads (f : Forest (Nat × α)) : List Nat := f.roots.map Prod.fst

theorem map_snd_number (k : Nat) (f : Forest α) : (f.number k).map Prod.snd = f := by
  induction f generalizing k with
  | nil => rfl
  | node a inner next ihInner ihNext => simp only [number, map, ihInner, ihNext]

theorem labels_number (k : Nat) (f : Forest α) :
    (f.number k).labels = (List.range' k f.labels.length).zip f.labels := by
  induction f generalizing k with
  | nil => rfl
  | node a inner next ihInner ihNext =>
    rw [number, labels, labels, ihInner, ihNext, List.length_cons, List.length_append,
      List.range'_succ, List.zip_cons_cons, ← List.range'_append_1, List.zip_append (by simp)]

theorem getElem?_labels_number (f : Forest α) (i : Nat) :
    (f.number 1).labels[i]? = f.labels[i]?.map fun a => (i + 1, a) := by
  rw [labels_number]
  cases label : f.labels[i]? with
  | none =>
    have le : f.labels.length ≤ i := List.getElem?_eq_none_iff.1 label
    rw [List.getElem?_eq_none (by simpa using le)]
    rfl
  | some a =>
    obtain ⟨lt, -⟩ := List.getElem?_eq_some_iff.1 label
    rw [Option.map_some, List.getElem?_zip_eq_some, List.getElem?_range' lt]
    exact ⟨by rw [Nat.one_mul, Nat.add_comm], label⟩

end Forest

/-- The bindings in force at a node of some kind, given those around it. -/
def Kind.scopeIn (s : Scope) : Kind → Scope
  | element e => s.declare e.declarations
  | _ => s

/-- The labels of a forest with the bindings in force around each, given those around the trees. -/
def Forest.withScope (s : Scope) : Forest Kind → Forest (Kind × Scope)
  | nil => nil
  | node kind inner next =>
    node (kind, s) (inner.withScope (kind.scopeIn s)) (next.withScope s)

namespace Document

variable {d d' : Document}

/-! ### Grafting -/

section Graft

variable {p y : Nat}

theorem kind?_graft (hp : p < d.size) (hy : y < d.size) (f : Forest Kind) :
    (d.graft p f).kind? y = d.kind? y := by
  induction f generalizing d p with
  | nil => rfl
  | node kind inner next ihInner ihNext =>
    have size : (d.appendChild p kind).size = d.size + 1 := size_appendChild d p kind
    rw [graft, ihNext, ihInner, kind?_appendChild hy]
    · rw [size]; exact Nat.lt_succ_self _
    · rw [size]; exact Nat.lt_succ_of_lt hy
    · rw [size_graft, size]; exact Nat.lt_add_right _ (Nat.lt_succ_of_lt hp)
    · rw [size_graft, size]; exact Nat.lt_add_right _ (Nat.lt_succ_of_lt hy)

theorem children_graft_of_ne (hp : p < d.size) (hy : y < d.size) (ne : y ≠ p) (f : Forest Kind) :
    (d.graft p f).children y = d.children y := by
  induction f generalizing d p with
  | nil => rfl
  | node kind inner next ihInner ihNext =>
    have size : (d.appendChild p kind).size = d.size + 1 := size_appendChild d p kind
    rw [graft, ihNext _ _ ne, ihInner, children_appendChild_eq hp, if_neg ne]
    · rw [size]; exact Nat.lt_succ_self _
    · rw [size]; exact Nat.lt_succ_of_lt hy
    · exact Nat.ne_of_lt hy
    · rw [size_graft, size]; exact Nat.lt_add_right _ (Nat.lt_succ_of_lt hp)
    · rw [size_graft, size]; exact Nat.lt_add_right _ (Nat.lt_succ_of_lt hy)

/-- What is shown stays so as long as the rows of the shown nodes do. -/
theorem Shows.congr {ids : List NodeId} {f : Forest (NodeId × Kind)} (h : d.Shows ids f)
    (rows : ∀ x ∈ f.labels.map Prod.fst, d'.kind? x = d.kind? x ∧ d'.children x = d.children x) :
    d'.Shows ids f := by
  induction h with
  | nil => exact .nil
  | @node id kind ids inner next hk _ _ ihInner ihNext =>
    simp only [Forest.labels, List.map_cons, List.map_append, List.mem_cons, List.mem_append,
      or_imp, forall_and, forall_eq] at rows
    obtain ⟨⟨kind, kinds, kinds'⟩, children, lists, lists'⟩ := rows
    refine .node (kind.trans hk) ?_ (ihNext fun x hx => ⟨kinds' x hx, lists' x hx⟩)
    rw [children]
    exact ihInner fun x hx => ⟨kinds x hx, lists x hx⟩

theorem mem_labels_number {k : Nat} {f : Forest Kind} {x : Nat}
    (hx : x ∈ (f.number k).labels.map Prod.fst) : k ≤ x ∧ x < k + f.labels.length := by
  rw [Forest.labels_number, List.map_fst_zip (by simp)] at hx
  obtain ⟨ge, lt⟩ := List.mem_range'_1.1 hx
  exact ⟨ge, lt⟩

/-- The grafted trees are the last children of their node, numbered from the end of the table. -/
theorem shows_graft (hp : p < d.size) (f : Forest Kind) :
    (d.graft p f).children p = d.children p ++ (f.number d.size).heads ∧
      (d.graft p f).Shows (f.number d.size).heads (f.number d.size) := by
  induction f generalizing d p with
  | nil => exact ⟨(List.append_nil _).symm, .nil⟩
  | node kind inner next ihInner ihNext =>
    -- the table grows in three steps: the node, what is inside it, what follows
    let d₁ := d.appendChild p kind
    let d₂ := d₁.graft d.size inner
    have size₁ : d₁.size = d.size + 1 := size_appendChild d p kind
    have size₂ : d₂.size = d.size + 1 + inner.labels.length := by rw [size_graft, size₁]
    have new : d.size < d₁.size := by omega
    have old : p < d₁.size := by omega
    have ne : p ≠ d.size := Nat.ne_of_lt hp
    obtain ⟨inside, showsInside⟩ := ihInner (d := d₁) new
    obtain ⟨after, showsAfter⟩ := ihNext (d := d₂) (p := p) (by omega)
    rw [size₁] at inside showsInside
    rw [size₂] at after showsAfter
    have fresh : d₁.children d.size = [] := by
      rw [children_appendChild_eq hp, if_neg ne.symm, children, node?_eq_none (Nat.le_refl _)]
    have kind₂ : d₂.kind? d.size = some kind := by
      rw [kind?_graft new new, kind?_appendChild_eq hp, if_pos rfl]
    have keep : ∀ x, x < d₂.size → x ≠ p →
        (d₂.graft p next).kind? x = d₂.kind? x ∧ (d₂.graft p next).children x = d₂.children x :=
      fun x hx hne => ⟨kind?_graft (by omega) hx next, children_graft_of_ne (by omega) hx hne next⟩
    refine ⟨?_, .node ?_ ?_ showsAfter⟩
    · rw [graft]
      refine after.trans ?_
      rw [children_graft_of_ne new old ne, children_appendChild_eq hp, if_pos rfl,
        List.append_assoc]
      rfl
    · exact (keep d.size (by omega) ne.symm).1.trans kind₂
    · rw [graft]
      have list : (d₂.graft p next).children d.size = (inner.number (d.size + 1)).heads := by
        rw [(keep d.size (by omega) ne.symm).2, inside, fresh, List.nil_append]
      rw [list]
      refine showsInside.congr fun x hx => ?_
      obtain ⟨ge, lt⟩ := mem_labels_number hx
      exact keep x (by omega) (by omega)

end Graft

/-! ### The document of a forest -/

theorem children_ofForest (f : Forest Kind) : (ofForest f).children root = (f.number 1).heads :=
  (shows_graft Linked.empty.size_pos f).1

theorem shows_ofForest (f : Forest Kind) :
    (ofForest f).Shows ((ofForest f).children root) (f.number 1) := by
  rw [children_ofForest]
  exact (shows_graft Linked.empty.size_pos f).2

/-- The table of a forest shows the forest, its nodes numbered. -/
theorem view_ofForest (f : Forest Kind) :
    (ofForest f).view ((ofForest f).children root) = f.number 1 :=
  (shows_children (Linked.ofForest f) root).unique (shows_ofForest f)

theorem size_ofForest (f : Forest Kind) : (ofForest f).size = 1 + f.labels.length :=
  size_graft _ _ f

theorem kind?_of_shows {ids : List NodeId} {f : Forest (NodeId × Kind)} (h : d.Shows ids f)
    {x : NodeId} {kind : Kind} (mem : (x, kind) ∈ f.labels) : d.kind? x = some kind := by
  induction h with
  | nil => cases mem
  | node hk _ _ ihInner ihNext =>
    rcases List.mem_cons.1 mem with eq | mem
    · obtain ⟨rfl, rfl⟩ := Prod.mk.inj eq
      exact hk
    · rcases List.mem_append.1 mem with mem | mem
      · exact ihInner mem
      · exact ihNext mem

/-- The label of a forest at some place is the node with the next number. -/
theorem kind?_ofForest (f : Forest Kind) (i : Nat) : (ofForest f).kind? (i + 1) = f.labels[i]? := by
  cases h : f.labels[i]? with
  | none =>
    have le : f.labels.length ≤ i := List.getElem?_eq_none_iff.1 h
    rw [kind?, node?_eq_none (by rw [size_ofForest]; omega)]
    rfl
  | some kind =>
    refine kind?_of_shows (shows_ofForest f) (List.mem_of_getElem? (i := i) ?_)
    rw [Forest.getElem?_labels_number, h]
    rfl

/-- The document element of a document that holds one element and nothing else. -/
theorem rootElement?_ofForest (e : Element) (inner : Forest Kind) :
    (ofForest (.node (.element e) inner .nil)).rootElement? = some 1 ∧
      (ofForest (.node (.element e) inner .nil)).children root = [1] := by
  have only : (ofForest (.node (.element e) inner .nil)).children root = [1] := children_ofForest _
  have hk : (ofForest (.node (.element e) inner .nil)).kind? 1 = some (.element e) :=
    kind?_ofForest _ 0
  refine ⟨?_, only⟩
  rw [rootElement?, only, List.find?_cons_of_pos (by rw [isElement, element?, hk]; rfl)]

/-- The bindings in force around some nodes, walking down what is shown. -/
theorem withScope_of_shows (linked : d.Linked) {ids : List NodeId} {f : Forest (NodeId × Kind)}
    (h : d.Shows ids f) {s : Scope} (around : ∀ a ∈ ids, d.scopeAround a = s) :
    ((f.map Prod.snd).withScope s).labels = f.labels.map fun x => (x.2, d.scopeAround x.1) := by
  induction h generalizing s with
  | nil => rfl
  | @node id kind ids inner next hk hi hn ihInner ihNext =>
    have here := around id List.mem_cons_self
    have inside : d.scopeAt id = kind.scopeIn s := by
      rw [scopeAt_eq linked, element?, hk, here]
      cases kind <;> rfl
    have children : ∀ c ∈ d.children id, d.scopeAround c = d.scopeAt id := fun c hc =>
      scopeAround_of_parent (linked.mem_children_iff.1 hc)
    rw [inside] at children
    simp only [Forest.map, Forest.withScope, Forest.labels, List.map_cons, List.map_append, here,
      ihInner children, ihNext fun a ha => around a (List.mem_cons_of_mem _ ha)]

/-- Outside the document element nothing is bound. -/
theorem scopeAround_of_mem_root (linked : d.Linked) {a : NodeId} (ha : a ∈ d.children root) :
    d.scopeAround a = [] := by
  have document : d.element? root = none := by
    rw [element?, linked.root_kind]
    rfl
  rw [scopeAround_of_parent (linked.mem_children_iff.1 ha), scopeAt_eq linked, document,
    scopeAround, linked.parent?_root]

theorem withScope_ofForest (f : Forest Kind) : (f.withScope []).labels =
    (f.number 1).labels.map fun x => (x.2, (ofForest f).scopeAround x.1) := by
  have linked := Linked.ofForest f
  have around : ∀ a ∈ (ofForest f).children root, (ofForest f).scopeAround a = [] := fun a ha =>
    scopeAround_of_mem_root linked ha
  have scopes := withScope_of_shows linked (shows_ofForest f) around
  rwa [Forest.map_snd_number] at scopes

/-- The bindings in force around a node are those that walking down the forest finds. -/
theorem getElem?_withScope (f : Forest Kind) (i : Nat) : (f.withScope []).labels[i]? =
    ((ofForest f).kind? (i + 1)).map fun kind => (kind, (ofForest f).scopeAround (i + 1)) := by
  rw [withScope_ofForest, List.getElem?_map, kind?_ofForest, Forest.getElem?_labels_number,
    Option.map_map]
  rfl

end Document

end SamlSeal.Xml
