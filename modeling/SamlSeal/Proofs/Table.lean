import SamlSeal.Proofs.Markup

/-!
# The table of nodes

A document is a table whose rows refer to each other.  That these references make a tree is an
invariant of the table and not part of its type.

* `Document.Linked`: the invariant.  The parent of a node is the node that lists it as a child,
  and parents come before their children in the table.
* `Document.Reachable`: the documents that reading and changing can make.  All of them are linked
  (`Reachable.linked`).
* `Document.Below`: a node lies below another one or is that node.  Two children of one node have
  nothing below them in common (`Below.eq_of_siblings`).

The equations for `appendChild`, `replaceElement` and `setText` say what each change does to every
row, so that the rest of the theory never looks at the array.
-/

namespace SamlSeal.Xml

namespace Document

variable {d d' : Document}

/-! ### What each change does to a row -/

theorem lt_size_of_node? {id : Nat} {n : Node} (h : d.node? id = some n) : id < d.size :=
  (Array.getElem?_eq_some_iff.1 h).1

theorem node?_isSome {id : Nat} (h : id < d.size) : ∃ n, d.node? id = some n :=
  ⟨_, Array.getElem?_eq_getElem h⟩

theorem node?_eq_none {id : Nat} (h : d.size ≤ id) : d.node? id = none :=
  Array.getElem?_eq_none h

theorem lt_size_of_kind? {id : Nat} {k : Kind} (h : d.kind? id = some k) : id < d.size := by
  obtain ⟨n, hn, -⟩ := Option.map_eq_some_iff.1 h
  exact lt_size_of_node? hn

theorem lt_size_of_element? {id : Nat} {e : Element} (h : d.element? id = some e) :
    id < d.size := by
  obtain ⟨k, hk, -⟩ := Option.bind_eq_some_iff.1 h
  exact lt_size_of_kind? hk

theorem lt_size_of_parent? {id p : Nat} (h : d.parent? id = some p) : id < d.size := by
  obtain ⟨n, hn, -⟩ := Option.bind_eq_some_iff.1 h
  exact lt_size_of_node? hn

theorem kind?_of_lt {id : Nat} (h : id < d.size) : ∃ k, d.kind? id = some k := by
  obtain ⟨n, hn⟩ := node?_isSome h
  exact ⟨n.kind, by rw [kind?, hn]; rfl⟩

theorem kind?_of_element? {id : NodeId} {e : Element} (h : d.element? id = some e) :
    d.kind? id = some (.element e) := by
  obtain ⟨k, hk, he⟩ := Option.bind_eq_some_iff.1 h
  cases k <;> simp [Kind.element?] at he
  rw [hk, he]

theorem element?_of_kind? {id : NodeId} {k : Kind} (h : d.kind? id = some k) :
    d.element? id = k.element? := by
  rw [element?, h, Option.bind_some]

theorem isElement_iff {id : NodeId} : d.isElement id = true ↔ ∃ e, d.element? id = some e :=
  Option.isSome_iff_exists

section AppendChild

variable {parent : NodeId} (hp : parent < d.size) (kind : Kind)

include hp in
/-- The row at a position after a node was added: the new row at the end, and all other rows as
they were, but for the new child of the parent. -/
theorem node?_appendChild_eq (id : NodeId) : (d.appendChild parent kind).node? id =
    if id = d.size then some ⟨kind, some parent, []⟩
    else if parent = id then
      (d.node? id).map fun n => { n with children := n.children ++ [d.size] }
    else d.node? id := by
  simp only [node?, appendChild, Array.getElem?_modify, Array.getElem?_push]
  by_cases new : id = d.size
  · -- the parent is an old row, so the new one is only pushed
    have ne : parent ≠ id := new ▸ Nat.ne_of_lt hp
    rw [if_neg ne, if_pos new]
    exact if_pos new
  · have new' : ¬ id = d.nodes.size := new
    rw [if_neg new, if_neg new']

include hp in
theorem kind?_appendChild_eq (id : NodeId) :
    (d.appendChild parent kind).kind? id = if id = d.size then some kind else d.kind? id := by
  rw [Document.kind?, node?_appendChild_eq hp, Document.kind?]
  split
  · rfl
  · split <;> cases d.node? id <;> rfl

include hp in
theorem parent?_appendChild_eq (id : NodeId) :
    (d.appendChild parent kind).parent? id = if id = d.size then some parent else d.parent? id := by
  rw [Document.parent?, node?_appendChild_eq hp, Document.parent?]
  split
  · rfl
  · split <;> cases d.node? id <;> rfl

include hp in
theorem children_appendChild_eq (id : NodeId) :
    (d.appendChild parent kind).children id =
      if id = parent then d.children id ++ [d.size] else d.children id := by
  rw [Document.children, node?_appendChild_eq hp, Document.children]
  by_cases new : id = d.size
  · have ne : id ≠ parent := new ▸ Nat.ne_of_gt hp
    rw [if_pos new, if_neg ne, node?_eq_none (Nat.le_of_eq new.symm)]
  rw [if_neg new]
  by_cases same : parent = id
  · obtain ⟨n, hn⟩ := node?_isSome (same ▸ hp)
    rw [if_pos same, if_pos same.symm, hn]
    rfl
  · rw [if_neg same, if_neg (Ne.symm same)]

end AppendChild

section ReplaceElement

variable {id : NodeId} {e : Element} (hid : d.element? id = some e) (e' : Element)

include hid in
theorem kind?_replaceElement (other : NodeId) : (d.replaceElement id e').kind? other =
    if other = id then some (.element e') else d.kind? other := by
  rw [kind?, node?_replaceElement, kind?]
  by_cases same : id = other
  · obtain ⟨n, hn⟩ := node?_isSome (same ▸ lt_size_of_element? hid)
    rw [if_pos same, if_pos same.symm, hn]
    rfl
  · rw [if_neg same, if_neg (Ne.symm same)]

include hid in
theorem element?_replaceElement (other : NodeId) : (d.replaceElement id e').element? other =
    if other = id then some e' else d.element? other := by
  rw [element?, kind?_replaceElement hid, element?]
  split <;> rfl

end ReplaceElement

section DetachChildren

/-- The rows after some of them lost their parent. -/
theorem getElem?_foldl_orphan (cs : List NodeId) (ns : Array Node) (id : NodeId) :
    (cs.foldl (fun ns c => ns.modify c fun n => { n with parent := none }) ns)[id]? =
      (ns[id]?).map fun n => if id ∈ cs then { n with parent := none } else n := by
  induction cs generalizing ns with
  | nil => simp
  | cons c cs ih =>
    rw [List.foldl_cons, ih, Array.getElem?_modify]
    by_cases same : c = id
    · subst same
      cases ns[c]? <;> simp
    · rw [if_neg same]
      cases ns[id]? <;> simp [Ne.symm same]

theorem node?_detachChildren (d : Document) (id other : NodeId) :
    (d.detachChildren id).node? other = (d.node? other).map fun n =>
      { n with
        parent := if other ∈ d.children id then none else n.parent
        children := if other = id then [] else n.children } := by
  rw [node?, detachChildren, getElem?_foldl_orphan, Array.getElem?_modify, node?]
  by_cases same : id = other
  · subst same
    cases d.nodes[id]? <;> simp
    split <;> rfl
  · rw [if_neg same]
    cases d.nodes[other]? <;> simp [Ne.symm same]
    split <;> rfl

theorem kind?_detachChildren (d : Document) (id other : NodeId) :
    (d.detachChildren id).kind? other = d.kind? other := by
  rw [kind?, node?_detachChildren, kind?, Option.map_map]
  rfl

theorem parent?_detachChildren (d : Document) (id other : NodeId) :
    (d.detachChildren id).parent? other =
      if other ∈ d.children id then none else d.parent? other := by
  rw [parent?, node?_detachChildren, parent?]
  cases d.node? other <;> simp

theorem children_detachChildren (d : Document) (id other : NodeId) :
    (d.detachChildren id).children other = if other = id then [] else d.children other := by
  rw [children, node?_detachChildren]
  cases h : d.node? other <;> simp [children, h]

@[simp] theorem size_detachChildren (d : Document) (id : NodeId) :
    (d.detachChildren id).size = d.size := by
  have orphans : ∀ (cs : List NodeId) (ns : Array Node),
      (cs.foldl (fun ns c => ns.modify c fun n => { n with parent := none }) ns).size = ns.size := by
    intro cs
    induction cs with
    | nil => intro ns; rfl
    | cons c cs ih => intro ns; rw [List.foldl_cons, ih, Array.size_modify]
  rw [size, detachChildren, orphans, Array.size_modify, size]

end DetachChildren

theorem setAttribute_cases {id : NodeId} {name value : String}
    (h : d.setAttribute id name value = .ok d') :
    ∃ e, d.element? id = some e ∧ d' = d.replaceElement id (e.setAttribute name value) := by
  rw [setAttribute] at h
  split at h
  · next e he => exact ⟨e, he, by injection h with h; exact h.symm⟩
  · cases h

theorem setText_cases {id : NodeId} {content : String} (h : d.setText id content = .ok d') :
    id < (d.detachChildren id).size ∧
      d' = if content = "" then d.detachChildren id
        else (d.detachChildren id).appendChild id (.text content) := by
  rw [setText] at h
  split at h
  · next e he =>
    rw [size_detachChildren]
    exact ⟨lt_size_of_element? he, by injection h with h; exact h.symm⟩
  · cases h

section SetText

variable {id : NodeId} {content : String} (h : d.setText id content = .ok d')

include h in
/-- Only elements get a text. -/
theorem element_of_setText : ∃ e, d.element? id = some e := by
  rw [setText] at h
  split at h
  · next e he => exact ⟨e, he⟩
  · cases h

include h in
theorem kind?_setText {other : NodeId} (old : other < d.size) :
    d'.kind? other = d.kind? other := by
  obtain ⟨hp, rfl⟩ := setText_cases h
  split
  · exact kind?_detachChildren d id other
  · rw [kind?_appendChild_eq hp, size_detachChildren, if_neg (Nat.ne_of_lt old),
      kind?_detachChildren]

include h in
/-- Setting a text makes no node but the text. -/
theorem kind?_setText_cases {other : NodeId} {k : Kind} (hk : d'.kind? other = some k) :
    k = .text content ∨ d.kind? other = some k := by
  obtain ⟨hp, rfl⟩ := setText_cases h
  split at hk
  · exact .inr (kind?_detachChildren d id other ▸ hk)
  · rw [kind?_appendChild_eq hp, kind?_detachChildren] at hk
    split at hk
    · exact .inl (Option.some.inj hk).symm
    · exact .inr hk

include h in
/-- Setting a text changes no element. -/
theorem element?_setText (other : NodeId) : d'.element? other = d.element? other := by
  obtain ⟨hp, rfl⟩ := setText_cases h
  rw [element?, element?]
  split
  · rw [kind?_detachChildren]
  · rw [kind?_appendChild_eq hp, size_detachChildren, kind?_detachChildren]
    split
    · next new =>
      -- the new row is a text, where there was no row before
      have none_new : d.kind? other = none := by
        rw [kind?, node?_eq_none (Nat.le_of_eq new.symm)]
        rfl
      rw [none_new]
      rfl
    · rfl

include h in
theorem parent?_setText {other : NodeId} (old : other < d.size) :
    d'.parent? other = if other ∈ d.children id then none else d.parent? other := by
  obtain ⟨hp, rfl⟩ := setText_cases h
  split
  · exact parent?_detachChildren d id other
  · rw [parent?_appendChild_eq hp, size_detachChildren, if_neg (Nat.ne_of_lt old),
      parent?_detachChildren]

include h in
theorem children_setText (other : NodeId) : d'.children other =
    if other = id then if content = "" then [] else [d.size] else d.children other := by
  obtain ⟨hp, rfl⟩ := setText_cases h
  split
  · rw [children_detachChildren]
  · rw [children_appendChild_eq hp, size_detachChildren, children_detachChildren]
    split <;> rfl

include h in
/-- The text that was set is the only one inside the node. -/
theorem text_setText : d'.text id = content := by
  rw [text, children_setText h, if_pos rfl]
  obtain ⟨hp, rfl⟩ := setText_cases h
  by_cases empty : content = ""
  · simp [empty]
  · have new : ((d.detachChildren id).appendChild id (.text content)).kind? d.size =
        some (.text content) := by
      rw [kind?_appendChild_eq hp, size_detachChildren, if_pos rfl]
    simp only [if_neg empty, List.flatMap_cons, List.flatMap_nil, List.append_nil, new,
      String.ofList_toList]

end SetText

/-! ### The invariant -/

/-- The rows of a table make a tree: the parent of a node is the one node that lists it as a child,
and it comes earlier in the table.  Children are listed in the order of their positions. -/
structure Linked (d : Document) : Prop where
  root_kind : d.kind? root = some .document
  mem_children_iff : ∀ {p c}, c ∈ d.children p ↔ d.parent? c = some p
  parent_lt : ∀ {p c : Nat}, d.parent? c = some p → p < c
  sorted : ∀ p, (d.children p).Pairwise (· < ·)

namespace Linked

theorem size_pos (hd : d.Linked) : 0 < d.size := lt_size_of_kind? hd.root_kind

theorem child_lt (hd : d.Linked) {p c : Nat} (h : c ∈ d.children p) : p < c :=
  hd.parent_lt (hd.mem_children_iff.1 h)

theorem child_lt_size (hd : d.Linked) {p c : Nat} (h : c ∈ d.children p) : c < d.size :=
  lt_size_of_parent? (hd.mem_children_iff.1 h)

theorem parent?_root (hd : d.Linked) : d.parent? root = none := by
  cases hp : d.parent? root with
  | none => rfl
  | some p => exact absurd (hd.parent_lt hp) (Nat.not_lt_zero p)

/-- Node 0 is no element. -/
theorem ne_root (hd : d.Linked) {id : NodeId} {e : Element} (h : d.element? id = some e) :
    id ≠ root := by
  rintro rfl
  have := kind?_of_element? h
  rw [hd.root_kind] at this
  cases this

theorem child_ne_root (hd : d.Linked) {p c : NodeId} (h : c ∈ d.children p) : c ≠ root :=
  Nat.ne_of_gt (Nat.lt_of_le_of_lt (Nat.zero_le _) (hd.child_lt h))

theorem nodup_children (hd : d.Linked) (p : NodeId) : (d.children p).Nodup :=
  (hd.sorted p).imp fun h => Nat.ne_of_lt h

theorem empty : Linked empty where
  root_kind := rfl
  mem_children_iff := by
    intro p c
    cases p <;> cases c <;> simp [children, parent?, node?, Document.empty]
  parent_lt := by
    intro p c h
    cases c <;> simp [parent?, node?, Document.empty] at h
  sorted := by
    intro p
    cases p <;> simp [children, node?, Document.empty]

theorem appendChild (hd : d.Linked) {parent : NodeId} (hp : parent < d.size) (kind : Kind) :
    (d.appendChild parent kind).Linked where
  root_kind := by
    have ne : root ≠ d.size := Nat.ne_of_lt hd.size_pos
    rw [kind?_appendChild_eq hp, if_neg ne, hd.root_kind]
  mem_children_iff := by
    intro p c
    rw [children_appendChild_eq hp, parent?_appendChild_eq hp]
    by_cases new : c = d.size
    · -- no row refers to the new one yet
      have old : c ∉ d.children p := fun h => Nat.lt_irrefl _ (new ▸ hd.child_lt_size h)
      by_cases same : p = parent
      · simp [new, same]
      · simp [new, same, Ne.symm same, new ▸ old]
    · by_cases same : p = parent
      · simp [new, same, hd.mem_children_iff]
      · simp [new, same, hd.mem_children_iff]
  parent_lt := by
    intro p c h
    rw [parent?_appendChild_eq hp] at h
    split at h
    · next new =>
      obtain rfl := Option.some.inj h
      rwa [new]
    · exact hd.parent_lt h
  sorted := by
    intro p
    rw [children_appendChild_eq hp]
    split
    · refine List.pairwise_append.2 ⟨hd.sorted p, List.pairwise_singleton _ _, ?_⟩
      intro a ha b hb
      rw [List.mem_singleton.1 hb]
      exact hd.child_lt_size ha
    · exact hd.sorted p

theorem graft (hd : d.Linked) {parent : NodeId} (hp : parent < d.size) (f : Forest Kind) :
    (d.graft parent f).Linked := by
  induction f generalizing d parent with
  | nil => exact hd
  | node kind inner next ihInner ihNext =>
    -- first the node, then what is inside it, then what follows, each on a longer table
    have added := hd.appendChild hp kind
    have size : (d.appendChild parent kind).size = d.size + 1 := size_appendChild d parent kind
    refine ihNext (ihInner added (by rw [size]; exact Nat.lt_succ_self _)) ?_
    rw [size_graft, size]
    exact Nat.lt_of_lt_of_le (Nat.lt_succ_of_lt hp) (Nat.le_add_right _ _)

theorem ofForest (f : Forest Kind) : (ofForest f).Linked :=
  Linked.empty.graft Linked.empty.size_pos f

theorem replaceElement (hd : d.Linked) {id : NodeId} {e : Element} (hid : d.element? id = some e)
    (e' : Element) : (d.replaceElement id e').Linked where
  root_kind := by
    rw [kind?_replaceElement hid, if_neg (Ne.symm (hd.ne_root hid)), hd.root_kind]
  mem_children_iff := by
    intro p c
    rw [children_replaceElement, parent?_replaceElement, hd.mem_children_iff]
  parent_lt := by
    intro p c h
    rw [parent?_replaceElement] at h
    exact hd.parent_lt h
  sorted := by
    intro p
    rw [children_replaceElement]
    exact hd.sorted p

theorem setAttribute (hd : d.Linked) {id : NodeId} {name value : String}
    (h : d.setAttribute id name value = .ok d') : d'.Linked := by
  obtain ⟨e, he, rfl⟩ := setAttribute_cases h
  exact hd.replaceElement he _

theorem detachChildren (hd : d.Linked) (id : NodeId) : (d.detachChildren id).Linked where
  root_kind := by rw [kind?_detachChildren, hd.root_kind]
  mem_children_iff := by
    intro p c
    rw [children_detachChildren, parent?_detachChildren]
    by_cases here : p = id
    · -- the children of `id` are exactly the nodes that lost their parent
      rw [if_pos here, here]
      split
      · simp
      · next h => simp [← hd.mem_children_iff, h]
    · rw [if_neg here, hd.mem_children_iff]
      split
      · next h =>
        rw [hd.mem_children_iff] at h
        simp [h, Ne.symm here]
      · rfl
  parent_lt := by
    intro p c h
    rw [parent?_detachChildren] at h
    split at h
    · cases h
    · exact hd.parent_lt h
  sorted := by
    intro p
    rw [children_detachChildren]
    split
    · exact List.Pairwise.nil
    · exact hd.sorted p

theorem setText (hd : d.Linked) {id : NodeId} {content : String}
    (h : d.setText id content = .ok d') : d'.Linked := by
  obtain ⟨hp, rfl⟩ := setText_cases h
  split
  · exact hd.detachChildren id
  · exact (hd.detachChildren id).appendChild hp _

end Linked

/-- The documents that can be made by reading a text, or from nothing, and by changes. -/
inductive Reachable : Document → Prop
  | empty : Reachable empty
  | parse {text : String} {d : Document} (h : parse text = .ok d) : Reachable d
  | appendChild {d : Document} (hd : Reachable d) {parent : NodeId} (hp : parent < d.size)
    (kind : Kind) : Reachable (d.appendChild parent kind)
  | setAttribute {d d' : Document} (hd : Reachable d) {id : NodeId} {name value : String}
    (h : d.setAttribute id name value = .ok d') : Reachable d'
  | setText {d d' : Document} (hd : Reachable d) {id : NodeId} {content : String}
    (h : d.setText id content = .ok d') : Reachable d'

/-- A document that was read comes from a forest. -/
theorem parse_cases {text : String} (h : parse text = .ok d) :
    ∃ m f, Markup.read? text.toList = some m ∧ Markup.Resolved [] [] m f ∧ d = ofForest f := by
  rw [parse] at h
  split at h
  · next d₁ hd =>
    obtain rfl : d₁ = d := by injection h
    obtain ⟨m, hm, hmd⟩ := Option.bind_eq_some_iff.1 hd
    obtain ⟨f, hf, hfd⟩ := Option.map_eq_some_iff.1 hmd
    exact ⟨m, f, hm, Markup.resolve?_eq_some_iff.1 hf, hfd.symm⟩
  · cases h

theorem parse_eq_ok {text : String} (h : parse? text = some d) : parse text = .ok d := by
  rw [parse, h]

/-- Texts in a row are read as their characters in a row. -/
theorem parse_join {lines : List String}
    (h : ((Markup.read? (lines.flatMap String.toList)).bind fun m =>
      (m.resolve? [] []).map ofForest) = some d) : parse (String.join lines) = .ok d := by
  refine parse_eq_ok ?_
  rw [parse?, String.toList_join]
  exact h

/-- Whatever is done to a document, its rows make a tree. -/
theorem Reachable.linked (h : d.Reachable) : d.Linked := by
  induction h with
  | empty => exact .empty
  | parse h =>
    obtain ⟨m, f, -, -, rfl⟩ := parse_cases h
    exact .ofForest f
  | appendChild _ hp kind ih => exact ih.appendChild hp kind
  | setAttribute _ h ih => exact ih.setAttribute h
  | setText _ h ih => exact ih.setText h

/-! ### Nodes below a node -/

/-- A node is `a` or lies below it. -/
inductive Below (d : Document) (a : NodeId) : NodeId → Prop
  | refl : Below d a a
  | step {p c : NodeId} (h : d.parent? c = some p) (hp : Below d a p) : Below d a c

namespace Below

variable {a b p x : Nat}

theorem le (hd : d.Linked) (h : d.Below a x) : a ≤ x := by
  induction h with
  | refl => exact Nat.le_refl _
  | step h _ ih => exact Nat.le_trans ih (Nat.le_of_lt (hd.parent_lt h))

theorem cases_parent (h : d.Below a x) : a = x ∨ ∃ p, d.parent? x = some p ∧ d.Below a p := by
  cases h with
  | refl => exact .inl rfl
  | step h hp => exact .inr ⟨_, h, hp⟩

theorem trans (hab : d.Below a b) (hbx : d.Below b x) : d.Below a x := by
  induction hbx with
  | refl => exact hab
  | step h _ ih => exact .step h ih

theorem child (hd : d.Linked) (hx : d.Below a x) {c : NodeId} (hc : c ∈ d.children x) :
    d.Below a c :=
  .step (hd.mem_children_iff.1 hc) hx

/-- A child lies below a node only if its parent does, or if it is that node. -/
theorem cases_child (hd : d.Linked) (h : d.Below a x) (hx : x ∈ d.children p) :
    x = a ∨ d.Below a p := by
  obtain eq | ⟨q, hq, hap⟩ := h.cases_parent
  · exact .inl eq.symm
  · obtain rfl : p = q := Option.some.inj ((hd.mem_children_iff.1 hx).symm.trans hq)
    exact .inr hap

/-- What lies above a node is a chain. -/
theorem total (ha : d.Below a x) (hb : d.Below b x) : d.Below a b ∨ d.Below b a := by
  induction ha with
  | refl => exact .inr hb
  | step h ha ih =>
    obtain rfl | ⟨q, hq, hb⟩ := hb.cases_parent
    · exact .inl (.step h ha)
    · obtain rfl : _ = q := Option.some.inj (h.symm.trans hq)
      exact ih hb

/-- A node below another one with the same parent is the same node. -/
theorem eq_of_same_parent (hd : d.Linked) (h : d.Below a b) (ha : d.parent? a = some p)
    (hb : d.parent? b = some p) : a = b := by
  obtain h | ⟨q, hq, hap⟩ := h.cases_parent
  · exact h
  · obtain rfl : p = q := Option.some.inj (hb.symm.trans hq)
    exact absurd (hap.le hd) (Nat.not_le_of_lt (hd.parent_lt ha))

/-- Two children of one node have nothing below them in common. -/
theorem eq_of_siblings (hd : d.Linked) (ha : d.Below a x) (hb : d.Below b x)
    (pa : d.parent? a = some p) (pb : d.parent? b = some p) : a = b := by
  obtain h | h := ha.total hb
  · exact h.eq_of_same_parent hd pa pb
  · exact (h.eq_of_same_parent hd pb pa).symm

end Below

end Document

end SamlSeal.Xml
