import Mathlib.Data.List.Chain
import SamlSeal.Proofs.Fitness

/-!
# The shape of documents

A document that was read has a shape that its text shows: texts do not touch each other, nothing is
inside texts, comments and processing instructions, and outside the document element there are no
texts and no other elements.  Setting attributes and texts keeps this shape.

* `Forest.Tidy`: the first two parts, for a forest,
* `Document.Tidy`: all parts, for the rows of a table; `Tidy.view` goes back to forests.
-/

namespace SamlSeal.Xml

open Markup

theorem countP_eq_of_map_eq {α β : Type} {p : α → Bool} {q : β → Bool} {as : List α} {bs : List β}
    (h : as.map p = bs.map q) : as.countP p = bs.countP q := by
  have count := congrArg (List.countP id) h
  rwa [List.countP_map, List.countP_map] at count

/-- No two neighbours in a list are marked. -/
abbrev Apart (marks : List Bool) : Prop := marks.IsChain fun a b => (a && b) = false

namespace Kind

def isText : Kind → Bool
  | text _ => true
  | _ => false

/-- A node that can have nothing inside. -/
def isLeaf : Kind → Bool
  | document => false
  | element _ => false
  | _ => true

end Kind

/-! ### Markup -/

/-- No two texts touch. -/
def Markup.Separate : Markup → Prop
  | .nil => True
  | .node item inner next =>
    (∀ i ∈ next.roots.head?, (item.isText && i.isText) = false) ∧ Separate inner ∧ Separate next

namespace Markup

theorem separate_leaf {item : Item} {inner next : Markup} (notText : item.isText = false)
    (hi : inner.Separate) (hn : next.Separate) : Separate (.node item inner next) :=
  ⟨fun i _ => by rw [notText, Bool.false_and], hi, hn⟩

theorem separate_consText (content : List Char) {m : Markup} (h : m.Separate) :
    (consText content m).Separate := by
  unfold consText
  split
  · exact h
  · next other =>
    refine ⟨fun i hi => ?_, trivial, h⟩
    cases m with
    | nil => cases hi
    | node item inner next =>
      obtain rfl := Option.some.inj hi
      cases item with
      | text s => exact absurd rfl (other s inner next)
      | _ => rfl

/-- What comes after the document element. -/
def Partial.outermost (p : Partial) : Markup := (p.around.getLast?.map Prod.snd).getD p.here

theorem Partial.outermost_cons (here : Markup) (x : WrittenName × Markup)
    (around : List (WrittenName × Markup)) :
    Partial.outermost ⟨here, x :: around⟩ = Partial.outermost ⟨x.2, around⟩ := by
  simp only [Partial.outermost, List.getLast?_cons]
  cases around.getLast? <;> rfl

/-- Texts do not touch, and there is none outside the document element. -/
structure Partial.Tidy (p : Partial) : Prop where
  here : p.here.Separate
  around : ∀ x ∈ p.around, x.2.Separate
  outermost : ∀ i ∈ p.outermost.roots, i.isText = false

theorem Partial.Tidy.takes {t : Token} {p p' : Partial} (tidy : p.Tidy)
    (h : Partial.Takes t p p') : p'.Tidy := by
  -- a node that is no text is put in front of the others on its level
  have node {item : Item} {inner next : Markup} {around : List (WrittenName × Markup)}
      (notText : item.isText = false) (hi : inner.Separate)
      (level : Partial.Tidy ⟨next, around⟩) : Partial.Tidy ⟨.node item inner next, around⟩ := by
    refine ⟨separate_leaf notText hi level.here, level.around, ?_⟩
    have outermost := level.outermost
    cases around with
    | nil => exact List.forall_mem_cons.2 ⟨notText, outermost⟩
    | cons x around =>
      rw [Partial.outermost_cons] at outermost ⊢
      exact outermost
  -- inside an element the level that is read does not matter outside
  have inside {m : Markup} (nonempty : p.around ≠ []) (hm : m.Separate) :
      Partial.Tidy ⟨m, p.around⟩ := by
    obtain ⟨here, around⟩ := p
    refine ⟨hm, tidy.around, ?_⟩
    have outermost := tidy.outermost
    cases around with
    | nil => exact absurd rfl nonempty
    | cons x around =>
      rw [Partial.outermost_cons] at outermost ⊢
      exact outermost
  cases h with
  | stop =>
    refine ⟨trivial, List.forall_mem_cons.2 ⟨tidy.here, tidy.around⟩, ?_⟩
    rw [Partial.outermost_cons]
    exact tidy.outermost
  | closed => exact node rfl trivial tidy
  | opened =>
    obtain ⟨next, later⟩ := List.forall_mem_cons.1 tidy.around
    refine node rfl tidy.here ⟨next, later, ?_⟩
    have outermost := tidy.outermost
    rwa [Partial.outermost_cons] at outermost
  | space => exact tidy
  | @text _ s _ nonempty => exact inside nonempty (separate_consText s tidy.here)
  | literal nonempty => exact inside nonempty (separate_consText _ tidy.here)
  | comment => exact node rfl trivial tidy
  | instruction => exact node rfl trivial tidy

/-- The shape of markup that was read. -/
theorem shape_of_read? {cs : List Char} {m : Markup} (h : read? cs = some m) :
    m.Separate ∧ (∀ i ∈ m.roots, i.isText = false) ∧ m.roots.countP isElement = 1 := by
  obtain ⟨cs', ts, -, -, made, single⟩ := read?_cases h
  have tidy : Partial.Tidy ⟨m, []⟩ :=
    Partial.ofTokens?_induction (Q := Partial.Tidy) ⟨trivial, by simp, by simp [Partial.outermost,
      Forest.roots]⟩ (fun t _ => Partial.Tidy.takes) made
  exact ⟨tidy.here, tidy.outermost, single⟩

end Markup

/-! ### Forests -/

theorem Forest.eq_nil_of_map {α β : Type} {g : α → β} {f : Forest α} (h : f.map g = .nil) :
    f = .nil := by
  cases f with
  | nil => rfl
  | node => cases h

/-- No two texts touch, and nothing is inside texts, comments and processing instructions. -/
def Forest.Tidy : Forest Kind → Prop
  | .nil => True
  | .node kind inner next =>
    (kind.isLeaf = true → inner = .nil) ∧
    (∀ k ∈ next.roots.head?, (kind.isText && k.isText) = false) ∧ inner.Tidy ∧ next.Tidy

theorem Item.Leaf.shape {item : Item} {kind : Kind} (h : item.Leaf kind) :
    kind.isText = item.isText ∧ kind.isElement = Markup.isElement item := by
  cases h <;> exact ⟨rfl, rfl⟩

/-- Resolving names keeps the shape. -/
theorem Markup.Resolved.tidy {m : Markup} {around : Namespaces} {outer : Scope} {f : Forest Kind}
    (h : Resolved around outer m f) (separate : m.Separate) :
    f.Tidy ∧ f.roots.map Kind.isText = m.roots.map Item.isText ∧
      f.roots.map Kind.isElement = m.roots.map Markup.isElement := by
  -- the marks of the first node and of those after it
  have node {kind : Kind} {item : Item} {inner next : Markup} {inner' next' : Forest Kind}
      (leaf : kind.isLeaf = true → inner' = .nil) (text : kind.isText = item.isText)
      (element : kind.isElement = Markup.isElement item)
      (apart : ∀ i ∈ next.roots.head?, (item.isText && i.isText) = false) (hi : inner'.Tidy)
      (hn : next'.Tidy ∧ next'.roots.map Kind.isText = next.roots.map Item.isText ∧
        next'.roots.map Kind.isElement = next.roots.map Markup.isElement) :
      (Forest.node kind inner' next').Tidy ∧
        (Forest.node kind inner' next').roots.map Kind.isText =
          (Forest.node item inner next).roots.map Item.isText ∧
        (Forest.node kind inner' next').roots.map Kind.isElement =
          (Forest.node item inner next).roots.map Markup.isElement := by
    obtain ⟨tidy, texts, elements⟩ := hn
    refine ⟨⟨leaf, fun k hk => ?_, hi, tidy⟩, ?_, ?_⟩
    · have heads := congrArg List.head? texts
      rw [List.head?_map, List.head?_map, hk, Option.map_some] at heads
      obtain ⟨i, hi, eq⟩ := Option.map_eq_some_iff.1 heads.symm
      rw [text, ← eq]
      exact apart i hi
    · rw [Forest.roots, Forest.roots, List.map_cons, List.map_cons, text, texts]
    · rw [Forest.roots, Forest.roots, List.map_cons, List.map_cons, element, elements]
  induction h with
  | nil => exact ⟨trivial, rfl, rfl⟩
  | leaf hk _ ih =>
    obtain ⟨apart, -, next⟩ := separate
    exact node (fun _ => rfl) hk.shape.1 hk.shape.2 apart trivial (ih next)
  | element _ _ _ _ _ _ ihInner ihNext =>
    obtain ⟨apart, inner, next⟩ := separate
    exact node (by simp [Kind.isLeaf]) rfl rfl apart (ihInner inner).1 (ihNext next)

/-! ### Tables -/

namespace Document

variable {d d' : Document}

/-- Whether a node is a text. -/
def isText (d : Document) (id : NodeId) : Bool := (d.kind? id).any Kind.isText

/-- The shape of a document, by the rows of its table. -/
structure Tidy (d : Document) : Prop where
  leaf : ∀ x, (d.kind? x).any Kind.isLeaf = true → d.children x = []
  apart : ∀ x, Apart ((d.children x).map d.isText)
  texts : ∀ c ∈ d.children root, d.isText c = false
  single : (d.children root).countP d.isElement = 1

theorem isElement_eq (d : Document) (id : NodeId) :
    d.isElement id = (d.kind? id).any Kind.isElement := by
  rw [isElement, element?]
  cases d.kind? id with
  | none => rfl
  | some k => cases k <;> rfl

theorem Shows.map_kind? {ids : List NodeId} {f : Forest (NodeId × Kind)} (h : d.Shows ids f) :
    ids.map d.kind? = (f.map Prod.snd).roots.map some := by
  induction h with
  | nil => rfl
  | node hk _ _ _ ihNext => rw [List.map_cons, hk, ihNext, Forest.map, Forest.roots, List.map_cons]

/-- The marks of some nodes, by the forest that shows them. -/
theorem Shows.map_any {ids : List NodeId} {f : Forest (NodeId × Kind)} (h : d.Shows ids f)
    (p : Kind → Bool) : ids.map (fun x => (d.kind? x).any p) = (f.map Prod.snd).roots.map p := by
  have marks := congrArg (List.map fun o : Option Kind => o.any p) h.map_kind?
  rw [List.map_map, List.map_map] at marks
  exact marks

/-- The rows of a forest that is shown. -/
theorem Shows.rows_of_tidy {ids : List NodeId} {f : Forest (NodeId × Kind)} (h : d.Shows ids f)
    (tidy : (f.map Prod.snd).Tidy) : Apart (ids.map d.isText) ∧
      ∀ x ∈ f.labels, (x.2.isLeaf = true → d.children x.1 = []) ∧
        Apart ((d.children x.1).map d.isText) := by
  induction h with
  | nil => exact ⟨.nil, by simp [Forest.labels]⟩
  | @node id kind ids inner next hk hi hn ihInner ihNext =>
    obtain ⟨leaf, apart, tinner, tnext⟩ := tidy
    obtain ⟨inside, below⟩ := ihInner tinner
    obtain ⟨after, later⟩ := ihNext tnext
    have text : d.isText id = kind.isText := by rw [isText, hk]; rfl
    refine ⟨?_, List.forall_mem_cons.2 ⟨⟨fun isLeaf => ?_, inside⟩,
      List.forall_mem_append.2 ⟨below, later⟩⟩⟩
    · rw [List.map_cons]
      refine List.IsChain.cons after fun b hb => ?_
      cases hn with
      | nil => cases hb
      | @node id' kind' _ _ _ hk' _ _ =>
        obtain rfl := Option.some.inj hb
        have text' : d.isText id' = kind'.isText := by rw [isText, hk']; rfl
        rw [text, text']
        exact apart kind' rfl
    · rw [Forest.eq_nil_of_map (leaf isLeaf)] at hi
      generalize d.children id = ids at hi
      cases hi
      rfl

theorem Tidy.view (tidy : d.Tidy) {ids : List NodeId} {f : Forest (NodeId × Kind)}
    (h : d.Shows ids f) (apart : Apart (ids.map d.isText)) : (f.map Prod.snd).Tidy := by
  induction h with
  | nil => trivial
  | @node id kind ids inner next hk hi hn ihInner ihNext =>
    obtain ⟨first, later⟩ := List.isChain_cons.1 apart
    refine ⟨fun isLeaf => ?_, fun k hk' => ?_, ihInner (tidy.apart id), ihNext later⟩
    · rw [tidy.leaf id (by rw [hk]; exact isLeaf)] at hi
      cases hi
      rfl
    · cases hn with
      | nil => cases hk'
      | @node id' kind' _ _ _ hkind' _ _ =>
        obtain rfl : kind' = k := Option.some.inj hk'
        have pair := first (d.isText id') rfl
        rwa [isText, isText, hk, hkind'] at pair

/-- There is one document element in what is shown of a document. -/
theorem Tidy.countP_view (tidy : d.Tidy) (linked : d.Linked) :
    ((d.view (d.children root)).map Prod.snd).roots.countP Kind.isElement = 1 := by
  rw [← tidy.single]
  refine countP_eq_of_map_eq ?_
  rw [← (shows_children linked root).map_any]
  exact List.map_congr_left fun x _ => (isElement_eq d x).symm

theorem Tidy.parse {text : String} (h : parse text = .ok d) : d.Tidy := by
  obtain ⟨m, f, hm, hf, rfl⟩ := parse_cases h
  obtain ⟨separate, noText, single⟩ := Markup.shape_of_read? hm
  obtain ⟨tidy, texts, elements⟩ := hf.tidy separate
  have shows' := shows_ofForest f
  obtain ⟨top, rows⟩ := shows'.rows_of_tidy (by rwa [Forest.map_snd_number])
  have row {x : NodeId} {k : Kind} (hk : (ofForest f).kind? x = some k) (ne : x ≠ root) :
      (x, k) ∈ (f.number 1).labels := by
    obtain ⟨i, rfl⟩ := Nat.exists_eq_succ_of_ne_zero ne
    rw [kind?_ofForest] at hk
    exact List.mem_of_getElem? ((Forest.getElem?_labels_number f i).trans (by rw [hk]; rfl))
  have marks (p : Kind → Bool) : ((ofForest f).children root).map
      (fun x => ((ofForest f).kind? x).any p) = f.roots.map p := by
    rw [shows'.map_any, Forest.map_snd_number]
  refine ⟨fun x leaf => ?_, fun x => ?_, fun c hc => ?_, ?_⟩
  · have ne : x ≠ root := by
      rintro rfl
      rw [(Linked.ofForest f).root_kind] at leaf
      cases leaf
    cases hk : (ofForest f).kind? x with
    | some k => exact (rows _ (row hk ne)).1 (by rwa [hk] at leaf)
    | none =>
      rw [hk] at leaf
      cases leaf
  · by_cases ne : x = root
    · rwa [ne]
    · cases hk : (ofForest f).kind? x with
      | some k => exact (rows _ (row hk ne)).2
      | none =>
        have noRow : (ofForest f).node? x = none := Option.map_eq_none_iff.1 hk
        rw [children, noRow]
        exact .nil
  · have mem := List.mem_map_of_mem (f := (ofForest f).isText) hc
    rw [show ((ofForest f).children root).map (ofForest f).isText = f.roots.map Kind.isText from
      marks Kind.isText, texts] at mem
    obtain ⟨i, hi, eq⟩ := List.mem_map.1 mem
    rw [← eq, noText i hi]
  · rw [← single]
    refine countP_eq_of_map_eq ?_
    rw [← elements, ← marks Kind.isElement]
    exact List.map_congr_left fun x _ => isElement_eq _ x

theorem Tidy.setAttribute (tidy : d.Tidy) {id : NodeId} {name value : String}
    (h : d.setAttribute id name value = .ok d') : d'.Tidy := by
  obtain ⟨e, he, eq⟩ := setAttribute_cases h
  -- an element becomes another one, so that no mark changes
  have marks {p : Kind → Bool} (elements : ∀ e e', p (.element e) = p (.element e'))
      (x : NodeId) : (d'.kind? x).any p = (d.kind? x).any p := by
    rw [eq, kind?_replaceElement he]
    split
    · next here =>
      rw [here, kind?_of_element? he]
      exact elements _ _
    · rfl
  have texts (x : NodeId) : d'.isText x = d.isText x := marks (fun _ _ => rfl) x
  refine ⟨fun x leaf => ?_, fun x => ?_, fun c hc => ?_, ?_⟩
  · rw [marks fun _ _ => rfl] at leaf
    rw [children_setAttribute h]
    exact tidy.leaf x leaf
  · rw [children_setAttribute h, funext texts]
    exact tidy.apart x
  · rw [children_setAttribute h] at hc
    rw [texts]
    exact tidy.texts c hc
  · rw [children_setAttribute h, ← tidy.single]
    exact List.countP_congr fun x _ => by rw [isElement_eq, isElement_eq, marks fun _ _ => rfl]

theorem Tidy.setText (tidy : d.Tidy) (linked : d.Linked) {id : NodeId} {content : String}
    (h : d.setText id content = .ok d') : d'.Tidy := by
  obtain ⟨e, he⟩ := element_of_setText h
  have ne : root ≠ id := (linked.ne_root he).symm
  have texts {x p : NodeId} (hx : x ∈ d.children p) : d'.isText x = d.isText x := by
    rw [isText, isText, kind?_setText h (linked.child_lt_size hx)]
  refine ⟨fun x leaf => ?_, fun x => ?_, fun c hc => ?_, ?_⟩
  · have other : x ≠ id := by
      rintro rfl
      rw [kind?_setText h (lt_size_of_element? he), kind?_of_element? he] at leaf
      cases leaf
    rw [children_setText_of_ne h other]
    by_cases old : x < d.size
    · rw [kind?_setText h old] at leaf
      exact tidy.leaf x leaf
    · rw [children, node?_eq_none (Nat.le_of_not_lt old)]
  · rw [children_setText h]
    split
    · split
      · exact .nil
      · exact .singleton _
    · rw [List.map_congr_left fun c hc => texts hc]
      exact tidy.apart x
  · rw [children_setText_of_ne h ne] at hc
    rw [texts hc]
    exact tidy.texts c hc
  · rw [children_setText_of_ne h ne, ← tidy.single]
    exact List.countP_congr fun x _ => by rw [Document.isElement, element?_setText h, Document.isElement]

end Document

end SamlSeal.Xml
