import SamlSeal.Proofs.Likeness
import SamlSeal.Proofs.Shape

/-!
# Canonical form row by row

The canonical form of a node can be written by looking up one row after the other: the row of the
node, then those that its list of children names.  Nothing says beforehand that the walk ends or
that a named row exists.

* `Document.writeRow`: the walk, which gives no result if it goes deeper than it may, and a fault if
  a row is missing,
* `Document.Standing`: siblings know their place,
* `Document.canonicalRows_eq`: in a linked table the walk ends, finds all rows, and writes the
  canonical form.
-/

namespace SamlSeal.Canonical

open Xml

/-- A text with the line breaks that its place asks for. -/
def Place.setOff (place : Place) (text : List Char) : List Char :=
  match place with
  | .inside => text
  | .outside before after => (if before then ['\n'] else []) ++ text ++ if after then ['\n'] else []

/-- The place of a node, given that of it and the siblings after it. -/
def Place.close (place : Place) (more : Bool) : Place :=
  match place with
  | .inside => .inside
  | .outside before after => .outside before (more || after)

/-- What is written of some nodes that stand at a place. -/
def writeNodes (excluded : Option NodeId) (comments : Bool) (inclusive : List String)
    (scope written : Scope) (place : Place) (f : Forest (NodeId × Kind)) : List Char :=
  write (render inclusive scope written (retain excluded comments place f))

section Nodes

variable {excluded : Option NodeId} {comments : Bool} {inclusive : List String}
  {scope written : Scope}

theorem framed_close (place : Place) (piece : Piece Element) (siblings : Forest (NodeId × Kind))
    (rest : Forest (Piece Element)) : framed place piece siblings rest =
      framed (place.close (hasElement siblings)) piece .nil .nil ++ rest := by
  cases place with
  | inside => rfl
  | outside before after =>
    have none : hasElement .nil = false := rfl
    simp only [framed, Place.close, none, Bool.false_or]
    cases before <;> cases hasElement siblings || after <;> rfl

/-- Nodes are retained one after the other. -/
theorem retain_cons (place : Place) (id : NodeId) (kind : Kind)
    (inner next : Forest (NodeId × Kind)) :
    retain excluded comments place (.node (id, kind) inner next) =
      retain excluded comments (place.close (hasElement next)) (.node (id, kind) inner .nil) ++
        retain excluded comments (place.next kind) next := by
  have nil (place : Place) : retain excluded comments place .nil = .nil := rfl
  have inside : place.close (hasElement next) = .inside ↔ place = .inside := by
    cases place <;> simp [Place.close]
  rw [Document.retain_node, Document.retain_node]
  by_cases ex : excluded = some id
  · rw [if_pos ex, if_pos ex]
    rfl
  rw [if_neg ex, if_neg ex]
  cases kind with
  | document => simp only [nil, Forest.append_nil]
  | element e => rfl
  | text content =>
    simp only [inside, nil]
    split <;> rfl
  | comment content =>
    dsimp only
    split
    · exact framed_close _ _ _ _
    · rfl
  | instruction target data => exact framed_close _ _ _ _

/-- Nodes are written one after the other. -/
theorem writeNodes_cons (place : Place) (id : NodeId) (kind : Kind)
    (inner next : Forest (NodeId × Kind)) :
    writeNodes excluded comments inclusive scope written place (.node (id, kind) inner next) =
      writeNodes excluded comments inclusive scope written (place.close (hasElement next))
          (.node (id, kind) inner .nil) ++
        writeNodes excluded comments inclusive scope written (place.next kind) next := by
  rw [writeNodes, retain_cons, render_append, write_append]
  rfl

theorem write_framed (place : Place) {piece : Piece Element} (leaf : ∀ e, piece ≠ .element e) :
    write (render inclusive scope written (framed place piece .nil .nil)) =
      place.setOff (write (render inclusive scope written (.node piece .nil .nil))) := by
  cases place with
  | inside => rfl
  | outside before after =>
    have none : hasElement .nil = false := rfl
    simp only [framed, Place.setOff, none, Bool.false_or]
    cases piece with
    | element e => exact absurd rfl (leaf e)
    | _ => cases before <;> cases after <;> simp [render, write]

end Nodes

end SamlSeal.Canonical

namespace SamlSeal.Xml.Document

open Canonical

variable {d : Document}

/-! ### The walk -/

/-- Goes through some nodes, and ends with the first one that cannot be written. -/
def inOrder (row : NodeId → Option (Except Fault (List Char))) :
    List NodeId → Option (Except Fault (List Char))
  | [] => some (.ok [])
  | c :: cs =>
    match row c with
    | some (.ok here) => (inOrder row cs).map (Except.map (here ++ ·))
    | ended => ended

/-- The siblings that are looked at: outside the document element no texts. -/
def visible (d : Document) (place : Place) (ids : List NodeId) : List NodeId :=
  if place = .inside then ids else ids.filter fun c => !d.isText c

/-- What is written of a node, in at most `n` levels.  `written` holds the bindings that the start
tags around it make. -/
def writeRow (d : Document) (excluded : Option NodeId) (comments : Bool) (inclusive : List String) :
    Nat → Scope → NodeId → Option (Except Fault (List Char))
  | 0, _, _ => none
  | n + 1, written, id =>
    if excluded = some id then some (.ok [])
    else match d.kind? id with
      | none => some (.error (.unknownNode id))
      | some .document =>
        inOrder (d.writeRow excluded comments inclusive n written)
          (d.visible (.outside false false) (d.children id))
      | some (.element e) =>
        let o := Opening.ofElement inclusive (d.scopeAt id) written e
        (inOrder (d.writeRow excluded comments inclusive n (o.bindings written))
          (d.children id)).map (Except.map fun inner => o.write ++ inner ++ o.writeEnd)
      | some (.text content) => some (.ok (Escape.text content.toList))
      | some (.comment content) =>
        some (.ok (if comments then
          (d.place id).setOff (['<', '!', '-', '-'] ++ content.toList ++ ['-', '-', '>']) else []))
      | some (.instruction target data) =>
        some (.ok ((d.place id).setOff
          (['<', '?'] ++ target.toList ++ Canonical.writeData data ++ ['?', '>'])))

/-- The canonical form of a node, row by row.  A walk that is deeper than there are rows, and one
more that may be missing, goes in circles. -/
def canonicalRows (d : Document) (apex : NodeId) (excluded : Option NodeId) (comments : Bool)
    (inclusive : List String) : Option (Except Fault String) :=
  if (d.kind? apex).isSome then
    (d.writeRow excluded comments (inclusivePrefixes inclusive) (d.size + 1) [] apex).map
      (Except.map String.ofList)
  else some (.error (.unknownNode apex))

/-! ### Places -/

/-- Comments and processing instructions are set off as their place asks for. -/
def StandsAt (d : Document) (place : Place) (id : NodeId) : Prop :=
  match d.kind? id with
  | some (.comment _) | some (.instruction ..) => d.place id = place
  | _ => True

/-- Siblings from a place on, each of which knows its place. -/
def Standing (d : Document) : Place → List NodeId → Prop
  | _, [] => True
  | place, id :: ids => d.StandsAt (place.close (ids.any d.isElement)) id ∧
      Standing d (place.next ((d.kind? id).getD .document)) ids

theorem StandsAt.of_place {place : Place} {id : NodeId} (h : d.place id = place) :
    d.StandsAt place id := by
  unfold StandsAt
  split
  · exact h
  · exact h
  · trivial

theorem place_eq_inside (linked : d.Linked) {p c : NodeId} (hc : c ∈ d.children p)
    (hp : d.isDocument p = false) : d.place c = .inside := by
  rw [place, linked.mem_children_iff.1 hc]
  split
  · next eq =>
    obtain rfl := Option.some.inj eq
    rw [if_neg (by simp [hp])]
  · next eq =>
    obtain rfl := Option.some.inj eq
    rw [if_neg (by simp [hp])]
  · rfl

/-- Directly below a document node, siblings see which elements are before them and after them. -/
theorem stands_child (linked : d.Linked) {p c : NodeId} (hp : d.isDocument p = true)
    {before after : List NodeId} (siblings : d.children p = before ++ c :: after) :
    d.StandsAt (.outside (before.any d.isElement) (after.any d.isElement)) c := by
  have up : d.parent? c = some p := linked.mem_children_iff.1 (by simp [siblings])
  have nodup := linked.nodup_children p
  rw [siblings] at nodup
  have others : ∀ b ∈ before, (b != c) = true := by
    intro b hb
    simpa using (List.nodup_append.1 nodup).2.2 b hb c List.mem_cons_self
  have front : (d.children p).takeWhile (· != c) = before := by
    rw [siblings, List.takeWhile_append_of_pos others]
    simp
  have back : ((d.children p).dropWhile (· != c)).drop 1 = after := by
    rw [siblings, List.dropWhile_append_of_pos others]
    simp
  unfold StandsAt
  split
  · next hk => simp only [place, hk, up, hp, if_true, front, back]
  · next hk => simp only [place, hk, up, hp, if_true, front, back]
  · trivial

theorem close_eq_inside {place : Place} {more : Bool} : place.close more = .inside ↔
    place = .inside := by
  cases place <;> simp [Place.close]

/-- The children of an element stand inside it. -/
theorem standing_inside {ids : List NodeId} (h : ∀ id ∈ ids, d.place id = .inside) :
    d.Standing .inside ids := by
  induction ids with
  | nil => trivial
  | cons id ids ih =>
    obtain ⟨here, later⟩ := List.forall_mem_cons.1 h
    exact ⟨.of_place here, ih later⟩

/-- The children of a document node stand outside the document element. -/
theorem standing_outside (linked : d.Linked) {p : NodeId} (hp : d.isDocument p = true)
    {before ids : List NodeId} (siblings : d.children p = before ++ ids) :
    d.Standing (.outside (before.any d.isElement) false) ids := by
  induction ids generalizing before with
  | nil => trivial
  | cons id ids ih =>
    have kind : ((d.kind? id).getD .document).isElement = d.isElement id := by
      rw [isElement, element?]
      cases d.kind? id with
      | none => rfl
      | some kind => cases kind <;> rfl
    refine ⟨?_, ?_⟩
    · rw [Place.close, Bool.or_false]
      exact stands_child linked hp siblings
    · rw [List.append_cons] at siblings
      have later := ih siblings
      rw [List.any_append, List.any_cons, List.any_nil, Bool.or_false, ← kind] at later
      exact later

/-! ### What is written -/

section Writing

variable {excluded : Option NodeId} {comments : Bool} {inclusive : List String}
  {scope written : Scope}

/-- A node is written as it stands.  Only inside an element is a text looked at. -/
def Writes (d : Document) (excluded : Option NodeId) (comments : Bool) (inclusive : List String)
    (scope written : Scope) (row : NodeId → Option (Except Fault (List Char))) (id : NodeId) :
    Prop :=
  ∀ kind place, d.kind? id = some kind → d.StandsAt place id →
    (kind.isText = true → place = .inside) → row id = some (.ok
      (writeNodes excluded comments inclusive scope written place
        (.node (id, kind) (d.view (d.children id)) .nil)))

theorem hasElement_shows {ids : List NodeId} {f : Forest (NodeId × Kind)} (hf : d.Shows ids f) :
    hasElement f = ids.any d.isElement := by
  induction hf with
  | nil => rfl
  | @node id kind _ _ _ hk _ _ _ ih =>
    have here : kind.isElement = d.isElement id := by
      rw [isElement, element?, hk]
      cases kind <;> rfl
    rw [hasElement] at ih ⊢
    rw [Forest.roots, List.any_cons, List.any_cons, ih, here]

theorem visible_cons (place : Place) (id : NodeId) (ids : List NodeId) :
    d.visible place (id :: ids) =
      if d.isText id = true ∧ place ≠ .inside then d.visible place ids
      else id :: d.visible place ids := by
  unfold visible
  by_cases inside : place = .inside
  · simp [inside]
  · cases text : d.isText id <;> simp [inside, text]

theorem visible_next (place : Place) (kind : Kind) (ids : List NodeId) :
    d.visible (place.next kind) ids = d.visible place ids := by
  cases place <;> rfl

/-- If each of some nodes is written as it stands, all of them are written in order. -/
theorem inOrder_eq (linked : d.Linked) {row : NodeId → Option (Except Fault (List Char))}
    {ids : List NodeId} {f : Forest (NodeId × Kind)} (hf : d.Shows ids f)
    (rows : ∀ id ∈ ids, d.Writes excluded comments inclusive scope written row id)
    {place : Place} (standing : d.Standing place ids) :
    inOrder row (d.visible place ids) =
      some (.ok (writeNodes excluded comments inclusive scope written place f)) := by
  induction hf generalizing place with
  | nil =>
    have none : d.visible place [] = [] := by cases place <;> rfl
    rw [none]
    rfl
  | @node id kind ids inner next hk hi hn _ ihNext =>
    obtain ⟨here, later⟩ := List.forall_mem_cons.1 rows
    obtain ⟨stands, standing⟩ := standing
    rw [hk, Option.getD_some] at standing
    have rest := ihNext later standing
    rw [visible_next] at rest
    have text : d.isText id = kind.isText := by rw [isText, hk]; rfl
    rw [visible_cons, text, writeNodes_cons, hasElement_shows hn]
    split
    · next hidden =>
      -- a text outside the document element is not written
      have nothing : writeNodes excluded comments inclusive scope written
          (place.close (ids.any d.isElement)) (.node (id, kind) inner .nil) = [] := by
        cases kind with
        | text content =>
          have outside : place.close (ids.any d.isElement) ≠ .inside := by
            rw [Ne, close_eq_inside]
            exact hidden.2
          rw [writeNodes, retain_node]
          by_cases ex : excluded = some id <;> simp [ex, outside, retain, render, Canonical.write]
        | _ => cases hidden.1
      rw [rest, nothing, List.nil_append]
    · next shown =>
      have written := here kind _ hk stands fun isText =>
        close_eq_inside.2 (by_contra fun outside => shown ⟨isText, outside⟩)
      obtain rfl := hi.unique (shows_children linked id)
      rw [inOrder, written, rest]
      rfl

/-- A row is written as its node stands, if there are as many levels left as rows behind it. -/
theorem writes_writeRow (linked : d.Linked) {n : Nat} {id : NodeId} (deep : d.size ≤ id + n)
    (excluded : Option NodeId) (comments : Bool) (inclusive : List String) (written : Scope) :
    d.Writes excluded comments inclusive (d.scopeAround id) written
      (d.writeRow excluded comments inclusive n written) id := by
  induction n generalizing id written with
  | zero =>
    intro kind place hk
    exact absurd (lt_size_of_kind? hk) (Nat.not_lt.2 deep)
  | succ n ih =>
    intro kind place hk stands text
    have below : ∀ c ∈ d.children id, ∀ written, d.Writes excluded comments inclusive
        (d.scopeAt id) written (d.writeRow excluded comments inclusive n written) c := by
      intro c hc written
      have lt := linked.child_lt hc
      rw [← scopeAround_of_parent (linked.mem_children_iff.1 hc)]
      exact ih (by omega) written
    have shows := shows_children linked id
    rw [writeRow, hk, writeNodes, retain_node]
    by_cases ex : excluded = some id
    · rw [if_pos ex, if_pos ex]
      rfl
    rw [if_neg ex, if_neg ex]
    cases kind with
    | document =>
      have same : d.scopeAt id = d.scopeAround id := by rw [scopeAt_eq linked, element?, hk]; rfl
      have isDocument : d.isDocument id = true := by simp [isDocument, hk]
      rw [same] at below
      have children := inOrder_eq linked shows (fun c hc => below c hc written)
        (standing_outside linked isDocument (List.nil_append _).symm)
      exact children.trans (by simp [writeNodes, retain])
    | element e =>
      have scope := scopeAt_of_element linked (element?_of_kind? hk)
      have isDocument : d.isDocument id = false := by simp [isDocument, hk]
      have children := fun written => inOrder_eq linked shows (fun c hc => below c hc written)
        (standing_inside fun c hc => place_eq_inside linked hc isDocument)
      simp only [visible, if_pos] at children
      dsimp only
      rw [children, scope]
      simp [writeNodes, retain, render, Canonical.write, Except.map]
    | text content =>
      rw [text rfl]
      simp [retain, render, Canonical.write]
    | comment content =>
      have placed : d.place id = place := by rwa [StandsAt, hk] at stands
      cases comments with
      | false => rfl
      | true =>
        dsimp only
        rw [if_pos rfl, if_pos rfl, placed]
        simp [retain, write_framed, render, Canonical.write]
    | instruction target data =>
      have placed : d.place id = place := by rwa [StandsAt, hk] at stands
      dsimp only
      rw [placed]
      simp [retain, write_framed, render, Canonical.write]

end Writing

/-- In a linked table no row is missing, and the walk never goes in circles: it writes the canonical
form. -/
theorem canonicalRows_eq (linked : d.Linked) (apex : NodeId) (excluded : Option NodeId)
    (comments : Bool) (inclusive : List String) :
    d.canonicalRows apex excluded comments inclusive =
      some (d.canonical apex excluded comments inclusive) := by
  rw [canonicalRows, canonical]
  cases hk : d.kind? apex with
  | none => rfl
  | some kind =>
    have inside : kind.isText = true → d.place apex = .inside := by
      intro text
      cases kind with
      | text content => rw [place, hk]
      | _ => cases text
    have deep : d.size ≤ apex + (d.size + 1) := by omega
    have row := writes_writeRow linked deep excluded comments (inclusivePrefixes inclusive) [] kind
      (d.place apex) hk (.of_place rfl) inside
    rw [Option.isSome_some, if_pos rfl, if_pos rfl, row, rendered, retained,
      view_singleton linked hk]
    rfl

/-- A row that is named but missing is a fault. -/
example : canonicalRows ⟨#[⟨.document, none, [1]⟩]⟩ root none false [] =
    some (.error (.unknownNode 1)) := by cbv

end SamlSeal.Xml.Document
