import Mathlib.Data.List.Find
import SamlSeal.Proofs.Profile
import SamlSeal.Proofs.Unambiguous

/-!
# Tamper evidence

Two verified messages with the same signed information say the same outside their signatures,
unless the digest method collides.  The signed information is looked at twice: by verifying, in the
table of the document, and through its canonical form, as what the form says.  `Document.tree?` is
what it says at an element, and what verifying looks up at the element is a function of it:

* the children of a name (`children_of_tree?`, `child?_of_tree?`, `childNamed?_of_tree?`),
* the value of an attribute (`attribute?_of_tree?`) and the text inside (`text_of_tree?`),
* and so everything that a reference declares (`declared?_of_tree?`): the transforms, the digest
  method and the digest.

So equal forms of the signed information declare equal digests, and from there the canonical forms
of the signed elements are equal.
-/

namespace SamlSeal

open Xml

/-! ### Selecting from a sorted list -/

namespace Sorting

variable {α : Type} {le : α → α → Bool} {p : α → Bool}

theorem filter_insert {a : α} {bs : List α} (h : p a → ∀ b ∈ bs, p b → le a b) :
    (insert le a bs).filter p = (a :: bs).filter p := by
  induction bs with
  | nil => rfl
  | cons b bs ih =>
    rw [insert]
    split
    · rfl
    · next not =>
      rw [List.filter_cons, ih fun ha c hc => h ha c (List.mem_cons_of_mem _ hc)]
      by_cases ha : p a = true
      · -- `a` goes behind `b`, so `b` is not selected
        have hb : ¬ p b = true := fun hb => not (h ha b List.mem_cons_self hb)
        simp [ha, hb]
      · simp [List.filter_cons, ha]

/-- Sorting keeps the order of members that count as equal. -/
theorem filter_sort {as : List α} (h : ∀ a ∈ as, p a → ∀ b ∈ as, p b → le a b) :
    (sort le as).filter p = as.filter p := by
  induction as with
  | nil => rfl
  | cons a as ih =>
    rw [sort, filter_insert, List.filter_cons, ih, ← List.filter_cons]
    · intro b hb hpb c hc
      exact h b (List.mem_cons_of_mem _ hb) hpb c (List.mem_cons_of_mem _ hc)
    · intro ha b hb
      exact h a List.mem_cons_self ha b (List.mem_cons_of_mem _ (mem_sort.1 hb))

end Sorting

namespace Canonical

variable {ε : Type}

/-! ### Elements and text of a forest -/

/-- The elements of some pieces, not those inside them, each with what is inside it. -/
def elements : Forest (Piece ε) → List (ε × Forest (Piece ε))
  | .nil => []
  | .node (.element e) inner next => (e, inner) :: elements next
  | .node _ _ next => elements next

/-- The text of some pieces, not that inside their elements. -/
def directText : Forest (Piece ε) → List Char
  | .nil => []
  | .node (.text content) _ next => content.toList ++ directText next
  | .node _ _ next => directText next

theorem elements_joinText (content : String) (f : Forest (Piece ε)) :
    elements (joinText content f) = elements f := by
  unfold joinText
  split
  · rfl
  · split <;> rfl

theorem directText_joinText (content : String) (f : Forest (Piece ε)) :
    directText (joinText content f) = content.toList ++ directText f := by
  unfold joinText
  split
  · simp [directText]
  · split
    · next empty => simp [empty]
    · rfl

/-! ### Names of attributes -/

/-- The attributes of a name without colon are the ones without namespace. -/
theorem qualified_eq_iff {scope : Scope} {e : Element} {name : String}
    (sound : Namespaces.Sound scope) (consistent : e.Consistent scope) {a : Attribute}
    (ha : a ∈ e.attributes) (colon : ':' ∉ name.toList) :
    (writtenAttribute a).qualified = name ↔ a.name.uri = none ∧ a.name.localName = name := by
  have plain : a.name.uri = none → (writtenAttribute a).qualified = a.name.localName := by
    intro none
    simp [writtenAttribute, attributePfx, none, QName.qualified]
  constructor
  · intro eq
    -- a prefix would leave a colon in the name
    have none : a.name.uri = none := by
      rcases attributePfx_cases sound consistent ha with ⟨-, none⟩ | bound
      · exact none
      · have ne : attributePfx a ≠ "" := by
          rcases bound with ⟨eq, -⟩ | ⟨uri, -, -, ne, -⟩
          · simp [eq]
          · exact ne
        refine absurd ?_ colon
        simp [← eq, writtenAttribute, QName.qualified, ne]
    exact ⟨none, (plain none).symm.trans eq⟩
  · rintro ⟨none, eq⟩
    exact (plain none).trans eq

/-! ### Trees -/

/-- The content at an element: what it is, and what is inside it. -/
abbrev Tree := ElementContent × Forest (Piece ElementContent)

/-- An element has the given namespace and local name. -/
def ElementContent.isNamed (e : ElementContent) (uri name : String) : Bool :=
  e.localName == name && e.uri == uri

namespace Tree

/-- The elements of the given name directly inside. -/
def children (t : Tree) (uri name : String) : List Tree :=
  (elements t.2).filter (·.1.isNamed uri name)

/-- The first element of the given name directly inside. -/
def child? (t : Tree) (uri name : String) : Option Tree :=
  (elements t.2).find? (·.1.isNamed uri name)

/-- The first element of the given local name directly inside, in whatever namespace. -/
def childNamed? (t : Tree) (name : String) : Option Tree :=
  (elements t.2).find? fun s => s.1.localName == name

/-- The value of the attribute that is written with the given name. -/
def attribute? (t : Tree) (name : String) : Option String :=
  (t.1.attributes.find? (·.qualified == name)).map (·.value)

/-- The text directly inside. -/
def text (t : Tree) : List Char := directText t.2

end Tree

end Canonical

namespace Xml.Document

open Canonical

variable {d d' : Document} {x x' c c' : NodeId} {k k' : Bool}

/-- The content of what is inside a node. -/
def inside (d : Document) (k : Bool) (x : NodeId) : Forest (Piece ElementContent) :=
  merged ((retain none k .inside (d.view (d.children x))).map (Piece.map .ofElement))

/-- The content at a node, if it is an element. -/
def tree? (d : Document) (k : Bool) (x : NodeId) : Option Tree :=
  (d.element? x).map fun e => (.ofElement e, d.inside k x)

/-- What the canonical form of an element says is its tree. -/
theorem reading_eq_tree (linked : d.Linked) {e : Element} (he : d.element? x = some e) :
    d.reading x none k = .node (.element (.ofElement e)) (d.inside k x) .nil := by
  have hk := kind?_of_element? he
  have place : d.place x = .inside := by rw [place, hk]
  rw [reading, retained, place, view_singleton linked hk]
  rfl

theorem tree?_eq_of_reading (linked : d.Linked) (linked' : d'.Linked) {e e' : Element}
    (he : d.element? x = some e) (he' : d'.element? x' = some e')
    (same : d.reading x none k = d'.reading x' none k') : d.tree? k x = d'.tree? k' x' := by
  rw [reading_eq_tree linked he, reading_eq_tree linked' he'] at same
  obtain ⟨element, inside, -⟩ := Forest.node.inj same
  rw [tree?, he, tree?, he', Option.map_some, Option.map_some, Piece.element.inj element, inside]

/-- The trees of some nodes are the elements of their content. -/
theorem elements_shows (hd : d.Sound) (linked : d.Linked) {ids : List NodeId}
    {f : Forest (NodeId × Kind)} (hf : d.Shows ids f) (notRoot : ∀ a ∈ ids, a ≠ root) :
    elements (merged ((retain none k .inside f).map (Piece.map .ofElement))) =
      ids.filterMap (d.tree? k) := by
  induction hf with
  | nil => rfl
  | @node id kind ids inner next hk hi hn _ ihNext =>
    have rest := ihNext fun a ha => notRoot a (List.mem_cons_of_mem _ ha)
    have sound := hd id kind (notRoot id List.mem_cons_self) hk
    have shown : inner = d.view (d.children id) := hi.unique (shows_children linked id)
    have no : ¬ (none : Option NodeId) = some id := by simp
    rw [retain_node, if_neg no, List.filterMap_cons]
    cases kind with
    | document => exact sound.elim
    | element e =>
      have he : d.element? id = some e := element?_of_kind? hk
      simp only [tree?, he, Option.map_some]
      rw [← rest, shown]
      rfl
    | text content =>
      have he : d.element? id = none := element?_of_kind? hk
      simp only [tree?, he, Option.map_none]
      exact (elements_joinText content _).trans rest
    | comment content =>
      have he : d.element? id = none := element?_of_kind? hk
      simp only [tree?, he, Option.map_none]
      cases k <;> exact rest
    | instruction target data =>
      have he : d.element? id = none := element?_of_kind? hk
      simp only [tree?, he, Option.map_none]
      exact rest

theorem elements_inside (hd : d.Sound) (linked : d.Linked) (k : Bool) (x : NodeId) :
    elements (d.inside k x) = (d.children x).filterMap (d.tree? k) :=
  elements_shows hd linked (shows_children linked x) fun _ hc => linked.child_ne_root hc

/-- The text between some nodes is that of the ones that are texts. -/
theorem directText_shows (hd : d.Sound) {ids : List NodeId} {f : Forest (NodeId × Kind)}
    (hf : d.Shows ids f) (notRoot : ∀ a ∈ ids, a ≠ root) :
    directText (merged ((retain none k .inside f).map (Piece.map ElementContent.ofElement))) =
      ids.flatMap fun c =>
        match d.kind? c with
        | some (.text s) => s.toList
        | _ => [] := by
  induction hf with
  | nil => rfl
  | @node id kind ids inner next hk hi hn _ ihNext =>
    have rest := ihNext fun a ha => notRoot a (List.mem_cons_of_mem _ ha)
    have sound := hd id kind (notRoot id List.mem_cons_self) hk
    have no : ¬ (none : Option NodeId) = some id := by simp
    rw [retain_node, if_neg no, List.flatMap_cons, ← rest, hk]
    cases kind with
    | document => exact sound.elim
    | element e => rfl
    | text content => exact directText_joinText content _
    | comment content => cases k <;> rfl
    | instruction target data => rfl

theorem directText_inside (hd : d.Sound) (linked : d.Linked) (k : Bool) (x : NodeId) :
    directText (d.inside k x) = (d.text x).toList := by
  rw [text, String.toList_ofList]
  exact directText_shows hd (shows_children linked x) fun _ hc => linked.child_ne_root hc

/-! ### What verifying looks up -/

section Lookups

variable {t : Tree} {uri name : String}

theorem inside_of_tree? (ht : d.tree? k x = some t) : d.inside k x = t.2 := by
  obtain ⟨e, -, rfl⟩ := Option.map_eq_some_iff.1 ht
  rfl

section Children

variable {p : ElementContent → Bool} {test : NodeId → Bool}

/-- To look for a child is to look in the content, if both look at what the child is. -/
theorem find?_elements (hd : d.Sound) (linked : d.Linked) (ht : d.tree? k x = some t)
    (same : ∀ a, (d.element? a).any (p ∘ .ofElement) = test a) :
    (elements t.2).find? (p ·.1) = ((d.children x).find? test).bind (d.tree? k) := by
  have looks : (fun a => (d.tree? k a).any (p ·.1)) = test := by
    funext a
    rw [← same, tree?, Option.any_map]
    rfl
  rw [← inside_of_tree? ht, elements_inside hd linked, List.find?_filterMap, looks]

theorem filter_elements (hd : d.Sound) (linked : d.Linked) (ht : d.tree? k x = some t)
    (same : ∀ a, (d.element? a).any (p ∘ .ofElement) = test a) :
    (elements t.2).filter (p ·.1) = ((d.children x).filter test).filterMap (d.tree? k) := by
  rw [← inside_of_tree? ht, elements_inside hd linked, List.filter_filterMap, List.filterMap_filter]
  congr 1
  funext a
  rw [← same, tree?]
  cases d.element? a with
  | none => rfl
  | some e => cases h : p (.ofElement e) <;> simp [h]

theorem isNamed_eq_any (uri name : String) (a : NodeId) :
    (d.element? a).any ((ElementContent.isNamed · uri name) ∘ .ofElement) =
      d.isNamed uri name a := by
  rw [isNamed]
  cases d.element? a <;> rfl

end Children

theorem children_of_tree? (hd : d.Sound) (linked : d.Linked) (ht : d.tree? k x = some t) :
    t.children uri name = (d.childElements x uri name).filterMap (d.tree? k) :=
  filter_elements hd linked ht (isNamed_eq_any uri name)

theorem child?_of_tree? (hd : d.Sound) (linked : d.Linked) (ht : d.tree? k x = some t) :
    t.child? uri name = (d.childElement? x uri name).bind (d.tree? k) :=
  find?_elements hd linked ht (isNamed_eq_any uri name)

theorem childNamed?_of_tree? (hd : d.Sound) (linked : d.Linked) (ht : d.tree? k x = some t) :
    t.childNamed? name = (d.childNamed? x name).bind (d.tree? k) := by
  refine find?_elements (p := (·.localName == name)) hd linked ht fun a => ?_
  cases d.element? a <;> rfl

/-- The text directly inside is found in the content. -/
theorem text_of_tree? (hd : d.Sound) (linked : d.Linked) (ht : d.tree? k x = some t) :
    (d.text x).toList = t.text := by
  rw [Tree.text, ← inside_of_tree? ht, directText_inside hd linked]

/-- An attribute without namespace is found in the content. -/
theorem attribute?_of_tree? (hd : d.Sound) (linked : d.Linked) (consistent : d.ConsistentBelow x)
    (ht : d.tree? k x = some t) (colon : ':' ∉ name.toList) :
    d.attribute? x name = t.attribute? name := by
  obtain ⟨e, he, rfl⟩ := Option.map_eq_some_iff.1 ht
  have qualified {a : Attribute} (ha : a ∈ e.attributes) :=
    qualified_eq_iff (hd.scope linked x).2 (consistent x .refl e he) ha colon
  -- they all count as equal in canonical order, so the first one stays the first
  have sorted : (sortedAttributes e).filter (·.qualified == name) =
      (e.attributes.map writtenAttribute).filter (·.qualified == name) := by
    refine Sorting.filter_sort fun a ha pa b hb pb => ?_
    obtain ⟨a, mem, rfl⟩ := List.mem_map.1 ha
    obtain ⟨b, mem', rfl⟩ := List.mem_map.1 hb
    obtain ⟨uri, name⟩ := (qualified mem).1 (by simpa using pa)
    obtain ⟨uri', name'⟩ := (qualified mem').1 (by simpa using pb)
    simp [WrittenAttribute.le, writtenAttribute, uri, uri', name, name']
  have find : (sortedAttributes e).find? (·.qualified == name) =
      (e.attributes.find? (Attribute.isPlain name)).map writtenAttribute := by
    rw [← List.head?_filter, sorted, List.head?_filter, List.find?_map]
    refine congrArg _ (List.find?_congr fun a ha => ?_)
    rw [Bool.eq_iff_iff]
    simpa [Attribute.isPlain] using qualified ha
  rw [attribute?, he, Tree.attribute?]
  simp only [ElementContent.ofElement, Option.bind_some, find, Option.map_map]
  rfl

end Lookups

end Xml.Document

/-! ### What signed information declares -/

/-- What a reference says about the signed element: how it is to be written, and the digest of
that. -/
structure Declared where
  transforms : Reference.Transforms
  method : String
  digest : List Char

namespace Canonical.Tree

/-- The prefixes that a transform wants to be taken along. -/
def prefixes (transform : Tree) : Option (List String) :=
  (transform.childNamed? ElementName.inclusiveNamespaces).map fun list =>
    (Text.words ((list.attribute? AttributeName.prefixList).getD "").toList).map String.ofList

/-- The transforms of a reference. -/
def transforms? (reference : Tree) : Option Reference.Transforms := do
  let list ← reference.child? Namespace.dsig ElementName.transforms
  match list.children Namespace.dsig ElementName.transform with
  | [_, second] =>
    let mode ← Mode.ofUri? (← second.attribute? AttributeName.algorithm)
    some ⟨mode, second.prefixes⟩
  | _ => none

/-- What the only reference of signed information declares. -/
def declared? (info : Tree) : Option Declared :=
  match info.children Namespace.dsig ElementName.reference with
  | [reference] => do
    let transforms ← reference.transforms?
    let method ← reference.child? Namespace.dsig ElementName.digestMethod
    let uri ← method.attribute? AttributeName.algorithm
    let value ← reference.child? Namespace.dsig ElementName.digestValue
    some ⟨transforms, uri, value.text.filter (!isSpace ·)⟩
  | _ => none

end Canonical.Tree

namespace Xml.Document

open Canonical

variable {d : Document} {x c : NodeId} {k : Bool} {t : Tree} {uri name : String}

theorem ConsistentBelow.below {a : NodeId} (h : d.ConsistentBelow a) (below : d.Below a x) :
    d.ConsistentBelow x :=
  fun y hy => h y (below.trans hy)

theorem ConsistentBelow.child (h : d.ConsistentBelow x) (linked : d.Linked)
    (hc : c ∈ d.children x) : d.ConsistentBelow c :=
  h.below (Below.refl.child linked hc)

theorem OrdinaryBelow.below {a : NodeId} (h : d.OrdinaryBelow a none) (below : d.Below a x)
    (excluded : Option NodeId) : d.OrdinaryBelow x excluded :=
  fun y hy => h y ⟨below.trans hy.1, fun _ hs => nomatch hs⟩

theorem exists_tree? (named : d.Named uri name c) (k : Bool) : ∃ s, d.tree? k c = some s := by
  obtain ⟨e, he⟩ := named.element
  exact ⟨_, by rw [tree?, he]; rfl⟩

/-- The first child of a name has its tree in the content. -/
theorem child?_eq_some (hd : d.Sound) (linked : d.Linked) (huri : uri ≠ "")
    (ht : d.tree? k x = some t) (first : d.FirstChild x (d.Named uri name) c) :
    ∃ s, t.child? uri name = some s ∧ d.tree? k c = some s := by
  obtain ⟨s, hs⟩ := exists_tree? first.mem.2 k
  refine ⟨s, ?_, hs⟩
  rw [child?_of_tree? hd linked ht, (childElement?_eq_some_iff huri).2 first, Option.bind_some, hs]

/-- The list of prefixes that verifying finds is the one in the content. -/
theorem prefixes_of_tree? (hd : d.Sound) (linked : d.Linked) (consistent : d.ConsistentBelow x)
    (ht : d.tree? k x = some t) : t.prefixes = Reference.prefixes d x := by
  rw [Reference.prefixes, Tree.prefixes, childNamed?_of_tree? hd linked ht]
  cases found : d.childNamed? x ElementName.inclusiveNamespaces with
  | none => rfl
  | some c =>
    have first := (find?_children_eq_some_iff fun _ => locallyNamed_iff).1 found
    obtain ⟨e, he, -⟩ := first.mem.2
    have hc : d.tree? k c = some (.ofElement e, d.inside k c) := by rw [tree?, he]; rfl
    rw [Option.bind_some, hc, Option.map_some, Option.map_some,
      attribute?_of_tree? hd linked (consistent.child linked first.mem.1) hc (by decide)]

/-- The transforms that verifying finds are those in the content. -/
theorem transforms?_of_tree? (hd : d.Sound) (linked : d.Linked) (consistent : d.ConsistentBelow x)
    (ht : d.tree? k x = some t) {transforms : Reference.Transforms}
    (read : Reference.transforms d x = .ok transforms) : t.transforms? = some transforms := by
  have dsig : Namespace.dsig ≠ "" := by decide
  obtain ⟨list, first, second, hlist, pair, -, mode, prefixes⟩ :=
    (Reference.transforms_eq_ok_iff linked).1 read
  obtain ⟨l, child, hl⟩ := child?_eq_some hd linked dsig ht hlist
  have inList : ∀ a ∈ [first, second], a ∈ d.children list := fun a ha => pair.1.subset ha
  have named : ∀ a ∈ [first, second], d.Named Namespace.dsig ElementName.transform a :=
    fun a ha => (pair.2 a (inList a ha)).1 ha
  obtain ⟨s₁, h₁⟩ := exists_tree? (named first (by simp)) k
  obtain ⟨s₂, h₂⟩ := exists_tree? (named second (by simp)) k
  have children : l.children Namespace.dsig ElementName.transform = [s₁, s₂] := by
    rw [children_of_tree? hd linked hl, (childElements_eq_iff linked dsig).2 pair]
    simp [h₁, h₂]
  have below : d.ConsistentBelow second :=
    (consistent.child linked hlist.mem.1).child linked (inList second (by simp))
  have algorithm : s₂.attribute? AttributeName.algorithm = some transforms.mode.uri := by
    rw [← attribute?_of_tree? hd linked below h₂ (by decide), attribute?_eq_some_iff]
    exact mode
  have listed : s₂.prefixes = transforms.prefixes :=
    (prefixes_of_tree? hd linked below h₂).trans prefixes.symm
  simp only [Tree.transforms?, child, children, algorithm, listed, bind, Option.bind_some]
  rw [Mode.ofUri?_eq_some_iff.2 rfl, Option.bind_some]

/-- What verifying finds in the only reference of signed information is what the content
declares. -/
theorem declared?_of_tree? (hd : d.Sound) (linked : d.Linked) (consistent : d.ConsistentBelow x)
    (ht : d.tree? k x = some t) {reference value : NodeId} {transforms : Reference.Transforms}
    (only : d.Lists x (d.Named Namespace.dsig ElementName.reference) [reference])
    (read : Reference.transforms d reference = .ok transforms)
    (method : d.algorithmOf reference ElementName.digestMethod = .ok uri)
    (digest : d.requiredChild reference ElementName.digestValue = .ok value) :
    t.declared? = some ⟨transforms, uri, d.unwrapped value⟩ := by
  have dsig : Namespace.dsig ≠ "" := by decide
  have mem : reference ∈ d.children x := only.1.subset (by simp)
  have below := consistent.child linked mem
  obtain ⟨r, hr⟩ := exists_tree? ((only.2 reference mem).1 (by simp)) k
  have children : t.children Namespace.dsig ElementName.reference = [r] := by
    rw [children_of_tree? hd linked ht, (childElements_eq_iff linked dsig).2 only]
    simp [hr]
  obtain ⟨m, first, algorithm⟩ := algorithmOf_eq_ok_iff.1 method
  obtain ⟨s, methodChild, hs⟩ := child?_eq_some hd linked dsig hr first
  obtain ⟨v, valueChild, hv⟩ :=
    child?_eq_some hd linked dsig hr (requiredChild_eq_ok_iff.1 digest)
  have named : s.attribute? AttributeName.algorithm = some uri := by
    rw [← attribute?_of_tree? hd linked (below.child linked first.mem.1) hs (by decide)]
    exact attribute?_eq_some_iff.2 algorithm
  have transforms? := transforms?_of_tree? hd linked below hr read
  simp only [Tree.declared?, children, transforms?, methodChild, named, valueChild, bind,
    Option.bind_some]
  rw [unwrapped, text_of_tree? hd linked hv]

end Xml.Document

/-! ### Coverage -/

theorem DigestMethod.uri_injective {m m' : DigestMethod} (h : m.uri = m'.uri) : m = m' :=
  Except.ok.inj ((ofUri_eq_ok_iff.2 rfl).symm.trans (ofUri_eq_ok_iff.2 h))

/-- What the signature of a message covers: where it is, what its reference declares, and the text
that the digest is taken of. -/
structure Coverage (d : Document) where
  site : Site
  transforms : Reference.Transforms
  method : DigestMethod
  form : String
  top : d.rootElement? = some site.parent
  found : d.rootSignature = .ok (some site.signature)
  located : Site.locate d site.signature .root = .ok site
  read : Reference.transforms d site.reference = .ok transforms
  declared : d.algorithmOf site.reference ElementName.digestMethod = .ok method.uri
  written : site.signedForm d transforms = .ok form

namespace Coverage

variable {d : Document} {ctx : Context}

/-- The parts of the signature are where the profile asks for them. -/
theorem parts (c : Coverage d) (linked : d.Linked) :
    (∃ e, d.element? c.site.parent = some e) ∧ d.Below Document.root c.site.parent ∧
      (∃ e, d.element? c.site.signedInfo = some e) ∧ d.Below Document.root c.site.signedInfo ∧
      d.Lists c.site.signedInfo (d.Named Namespace.dsig ElementName.reference)
        [c.site.reference] := by
  obtain ⟨root, element, signed⟩ := rootSignature_eq_some_iff.1 c.found
  obtain rfl : root = c.site.parent :=
    Option.some.inj ((Document.rootElement?_eq_some_iff.2 element).symm.trans c.top)
  obtain ⟨e, he⟩ := element.mem.2
  obtain ⟨-, -, -, info, only, -⟩ := (Site.locate_eq_ok_iff linked he signed.mem.1).1 c.located
  have below := Document.Below.refl.child linked element.mem.1
  exact ⟨⟨e, he⟩, below, info.mem.2.element,
    (below.child linked signed.mem.1).child linked info.mem.1, only⟩

/-- A verified message has a signature that covers something. -/
theorem nonempty_of_verify (linked : d.Linked) (verified : (verify ctx d).outcome = .ok true) :
    Nonempty (Coverage d) := by
  obtain ⟨signature, found, -, message⟩ := verify_eq_true_iff.1 verified
  obtain ⟨root, element, signed⟩ := rootSignature_eq_some_iff.1 found
  obtain ⟨e, he⟩ := element.mem.2
  obtain ⟨site, located, digest, -⟩ := verifySite_eq_true_iff.1 message
  obtain ⟨-, rfl, rfl, -⟩ := (Site.locate_eq_ok_iff linked he signed.mem.1).1 located
  obtain ⟨_, computed, -⟩ := Site.verifyDigest_eq_true_iff.1 digest
  obtain ⟨-, transforms, read, method, declared, form, written, -⟩ :=
    Site.computeDigest_eq_ok_iff.1 computed
  exact ⟨site, transforms, method, form, Document.rootElement?_eq_some_iff.2 element, found,
    located, read, declared, written⟩

/-- The check of a verified message went through at the covering signature. -/
theorem verified_site (c : Coverage d) (verified : (verify ctx d).outcome = .ok true) :
    (c.site.verifyDigest ctx d).outcome = .ok true ∧
      (c.site.verifyValue ctx d).outcome = .ok true := by
  obtain ⟨signature, found, -, message⟩ := verify_eq_true_iff.1 verified
  obtain ⟨site, located, checks⟩ := verifySite_eq_true_iff.1 message
  obtain rfl : signature = c.site.signature :=
    Option.some.inj (Except.ok.inj (found.symm.trans c.found))
  obtain rfl : site = c.site := Except.ok.inj (located.symm.trans c.located)
  exact checks

/-- The digest in a verified message is that of what is covered. -/
theorem digest (c : Coverage d) (verified : (verify ctx d).outcome = .ok true) :
    ∃ value, d.requiredChild c.site.reference ElementName.digestValue = .ok value ∧
      d.unwrapped value = Base64.encode (c.method.hash (utf8 c.form)) := by
  obtain ⟨digest, computed, value, child, eq⟩ :=
    Site.verifyDigest_eq_true_iff.1 (c.verified_site verified).1
  obtain ⟨-, transforms, read, method, declared, form, written, rfl⟩ :=
    Site.computeDigest_eq_ok_iff.1 computed
  obtain rfl : transforms = c.transforms := Except.ok.inj (read.symm.trans c.read)
  obtain rfl : form = c.form := Except.ok.inj (written.symm.trans c.written)
  obtain rfl : method = c.method :=
    DigestMethod.uri_injective (Except.ok.inj (declared.symm.trans c.declared))
  exact ⟨value, child, (String.ofList_injective eq).symm⟩

/-- The content of the signed information of a verified message declares what is covered. -/
theorem declared?_of_verify (c : Coverage d) (hd : d.Sound) (linked : d.Linked)
    (consistent : d.ConsistentBelow Document.root) (verified : (verify ctx d).outcome = .ok true)
    {k : Bool} {t : Canonical.Tree} (ht : d.tree? k c.site.signedInfo = some t) :
    t.declared? =
      some ⟨c.transforms, c.method.uri, Base64.encode (c.method.hash (utf8 c.form))⟩ := by
  obtain ⟨-, -, -, below, only⟩ := c.parts linked
  obtain ⟨value, child, eq⟩ := c.digest verified
  rw [← eq]
  exact Document.declared?_of_tree? hd linked (consistent.below below) ht only c.read c.declared
    child

end Coverage

/-- **Tamper evidence.**  Take two messages that were read and verified, in which all names mean
what they were resolved to and no attribute is written with the prefix `xmlns`.  If their signed
information has the same canonical form, and the digest method does not collide on the two texts
that the digests are taken of, then the references ask for the same transforms, and the document
elements have the same content outside their signatures. -/
theorem tamper_evident {text text' : String} {d d' : Document} (read : Document.parse text = .ok d)
    (read' : Document.parse text' = .ok d') (consistent : d.ConsistentBelow Document.root)
    (consistent' : d'.ConsistentBelow Document.root)
    (ordinary : d.OrdinaryBelow Document.root none)
    (ordinary' : d'.OrdinaryBelow Document.root none) {ctx : Context}
    (verified : (verify ctx d).outcome = .ok true)
    (verified' : (verify ctx d').outcome = .ok true) (c : Coverage d) (c' : Coverage d')
    (sameInfo : signedInfoForm d c.site.signedInfo = signedInfoForm d' c'.site.signedInfo)
    (noCollision : c.method.hash (utf8 c.form) = c.method.hash (utf8 c'.form) → c.form = c'.form) :
    c.transforms = c'.transforms ∧
      d.content c.site.parent (some c.site.signature) c.transforms.mode.keepsComments =
        d'.content c'.site.parent (some c'.site.signature) c'.transforms.mode.keepsComments := by
  have linked := (Document.Revised.parse read).reachable.linked
  have linked' := (Document.Revised.parse read').reachable.linked
  have hd := (Document.Revised.parse read).sound
  have hd' := (Document.Revised.parse read').sound
  obtain ⟨⟨p, hp⟩, parent, ⟨i, hi⟩, info, -⟩ := c.parts linked
  obtain ⟨⟨p', hp'⟩, parent', ⟨i', hi'⟩, info', -⟩ := c'.parts linked'
  -- first the signed information is read back
  obtain ⟨method, form, input, -⟩ := Site.verifyValue_eq_true_iff.1 (c.verified_site verified).2
  obtain ⟨-, hform⟩ := Site.signedInput_eq_ok_iff.1 input
  obtain ⟨mode, -, canonical⟩ := signedInfoForm_eq_ok_iff.1 hform
  obtain ⟨mode', -, canonical'⟩ := signedInfoForm_eq_ok_iff.1 (sameInfo.symm.trans hform)
  have tree : d.tree? mode.keepsComments c.site.signedInfo =
      d'.tree? mode'.keepsComments c'.site.signedInfo :=
    Document.tree?_eq_of_reading linked linked' hi hi' <|
      Document.reading_eq_of_canonical hd hd' linked linked' hi hi' (consistent.below info)
        (consistent'.below info') (ordinary.below info none) (ordinary'.below info' none)
        (canonical.trans canonical'.symm)
  obtain ⟨t, ht⟩ : ∃ t, d.tree? mode.keepsComments c.site.signedInfo = some t :=
    ⟨_, by rw [Document.tree?, hi]; rfl⟩
  have declared := c.declared?_of_verify hd linked consistent verified ht
  have declared' := c'.declared?_of_verify hd' linked' consistent' verified' (tree ▸ ht)
  -- it declares the same digest by the same method
  obtain ⟨transforms, uri, digest⟩ :=
    Declared.mk.inj (Option.some.inj (declared.symm.trans declared'))
  have method : c'.method = c.method := DigestMethod.uri_injective uri.symm
  rw [method] at digest
  have sameForm := noCollision (Base64.encode_injective digest)
  -- so the signed elements are written alike, and are read back too
  have written : c.site.signedForm d c.transforms = c'.site.signedForm d' c'.transforms := by
    rw [c.written, c'.written, sameForm]
  exact ⟨transforms, (Document.Revised.parse read).content_eq_of_canonical (.parse read') hp hp'
    (consistent.below parent) (consistent'.below parent') (ordinary.below parent _)
    (ordinary'.below parent' _) written⟩

/-- `sealed` with its attributes in another order. -/
def reordered : Document := sealedWith [("IssueInstant", "t"), ("ID", "i")]

set_option maxRecDepth 10000 in
theorem parse_reordered : Document.parse (String.join
    ("<r IssueInstant='t' ID='i' xmlns:ds='http://www.w3.org/2000/09/xmldsig#'>" ::
      signatureLines)) = .ok reordered := by
  refine Document.parse_join ?_
  rw [signatureLines]
  simp only [List.flatMap_cons, List.flatMap_nil]
  -- the characters of a literal are at hand; to decode its bytes takes long
  repeat rw [String.toList_ofList]
  decide +kernel

/-- The signature covers the same text for every order of the attributes. -/
def sealedCoverage (attributes : List (String × String))
    (element : Canonical.write ((sealedWith attributes).rendered 1 (some 2) false []) = sealedForm) :
    Coverage (sealedWith attributes) where
  site := sealedSite
  transforms := ⟨.exclusive, none⟩
  method := .sha1
  form := String.ofList sealedForm
  top := rfl
  found := rfl
  located := rfl
  read := rfl
  declared := rfl
  written := Document.canonical_eq_ok rfl element

theorem form_sealedCoverage (attributes : List (String × String))
    (element : Canonical.write ((sealedWith attributes).rendered 1 (some 2) false []) = sealedForm) :
    (sealedCoverage attributes element).form = String.ofList sealedForm := rfl

theorem tamper_evident_reordered :
    (verify ⟨.publicKey sealingKey.publicKey, false⟩ sealed).outcome = .ok true ∧
    (verify ⟨.publicKey sealingKey.publicKey, false⟩ reordered).outcome = .ok true ∧
    sealed ≠ reordered ∧
    sealed.content 1 (some 2) false = reordered.content 1 (some 2) false := by
  have element : Canonical.write (sealed.rendered 1 (some 2) false []) = sealedForm := by
    decide +kernel
  have element' : Canonical.write (reordered.rendered 1 (some 2) false []) = sealedForm := by
    decide +kernel
  have info : reordered.rendered 3 none false [] = sealed.rendered 3 none false [] := by
    decide +kernel
  have verified : (verify ⟨.publicKey sealingKey.publicKey, false⟩ reordered).outcome = .ok true :=
    verify_sealedWith false rfl element' info
  have sameInfo : signedInfoForm sealed 3 = signedInfoForm reordered 3 :=
    (signedInfoForm_sealedWith rfl).trans (signedInfoForm_sealedWith info).symm
  have evident := tamper_evident parse_sealed parse_reordered
    (Document.consistentBelow_of_rows (by decide +kernel) _)
    (Document.consistentBelow_of_rows (by decide +kernel) _)
    (Document.ordinaryBelow_of_rows (by decide +kernel) _ _)
    (Document.ordinaryBelow_of_rows (by decide +kernel) _ _) (verify_sealed false) verified
    (sealedCoverage _ element) (sealedCoverage _ element') sameInfo
    -- stated through the lemma: comparing the two coverages would compare the documents
    fun _ => (form_sealedCoverage _ element).trans (form_sealedCoverage _ element').symm
  exact ⟨verify_sealed false, verified, by decide, evident.2⟩

end SamlSeal
