import SamlSeal.Proofs.Likeness

/-!
# What a canonical form depends on

Two documents can say the same in different ways: with attributes in another order, with a text cut
into several ones, with other declarations, and with anything at all around the element that is
written.  `Document.SameContent` says what it means that they say the same:

* `SameAttributes`: the attributes of two elements, up to their order,
* `Matters`: the prefixes whose bindings have to agree at an element,
* `Document.SameContent`: both for all elements below some nodes, and the same between them.

`canonical_eq_of_sameContent` is the main result: the same content has the same canonical form.  It
is a simulation, which carries along that the start tags written so far make the same bindings.
-/

namespace SamlSeal.Canonical

open Xml

/-! ### Attributes up to their order -/

/-- The same attributes: in the same order, or in any order if their names tell them apart.  For
that no two may have the same local name and the same namespace, where none counts as the empty
one. -/
def SameAttributes (as bs : List Attribute) : Prop :=
  as = bs ∨ as.Perm bs ∧ (as.map fun a => (a.name.uri.getD "", a.name.localName)).Nodup

theorem SameAttributes.perm {as bs : List Attribute} (h : SameAttributes as bs) : as.Perm bs := by
  rcases h with rfl | ⟨perm, -⟩
  · exact .refl _
  · exact perm

/-- Attributes with different names have one order only. -/
theorem sortedAttributes_congr {e e' : Element} (h : SameAttributes e.attributes e'.attributes) :
    sortedAttributes e' = sortedAttributes e := by
  rcases h with eq | ⟨perm, distinct⟩
  · rw [sortedAttributes, sortedAttributes, eq]
  have sorted := (Sorting.sort_perm WrittenAttribute.le (e.attributes.map writtenAttribute))
  refine (List.Perm.eq_of_pairwise (fun a b ha hb hab hba => ?_) (pairwise_sort_writtenAttribute _)
    (pairwise_sort_writtenAttribute _)
    (sorted.trans ((perm.map _).trans (Sorting.sort_perm _ _).symm))).symm
  have key : ((e.attributes.map writtenAttribute).map fun a => (a.uri, a.localName)).Nodup := by
    rw [List.map_map]
    exact distinct
  have ha := Sorting.mem_sort.1 ha
  have hb := (perm.map writtenAttribute).mem_iff.2 (Sorting.mem_sort.1 hb)
  refine List.inj_on_of_nodup_map key ha hb ?_
  simp only [WrittenAttribute.le, Bool.or_eq_true, Bool.and_eq_true, decide_eq_true_eq,
    beq_iff_eq] at hab hba
  rcases hab with lt | ⟨eq, le⟩
  · rcases hba with gt | ⟨eq, -⟩
    · exact absurd (String.lt_trans lt gt) (String.lt_irrefl _)
    · exact absurd (eq ▸ lt) (String.lt_irrefl _)
  · rcases hba with gt | ⟨-, ge⟩
    · exact absurd (eq ▸ gt) (String.lt_irrefl _)
    · rw [eq, String.le_antisymm le ge]

/-! ### One start tag -/

/-- The binding of a prefix matters at an element: the element or one of its attributes is written
with it, or it is always taken along.  The prefix `xml` needs no binding. -/
def Matters (inclusive : List String) (e : Element) (p : String) : Prop :=
  (p = elementPfx e ∨ (∃ a ∈ e.attributes, attributePfx a = p ∧ p ≠ "") ∨ p ∈ inclusive) ∧ p ≠ "xml"

section Opening

variable {inclusive inclusive' : List String} {scope scope' written written' : Scope}
  {e e' : Element}

/-- Two elements with the same name and attributes have the same start tag, if the bindings that
matter are the same. -/
theorem ofElement_congr (name : e'.name = e.name)
    (attributes : SameAttributes e.attributes e'.attributes)
    (lists : ∀ p, p ∈ inclusive' ↔ p ∈ inclusive)
    (bound : ∀ p, Matters inclusive e p → scope'.uri? p = scope.uri? p)
    (known : ∀ p, written'.uri? p = written.uri? p) :
    Opening.ofElement inclusive' scope' written' e' =
      Opening.ofElement inclusive scope written e := by
  have pfx : elementPfx e' = elementPfx e := by rw [elementPfx, name, elementPfx]
  have declarations :
      rendered inclusive' scope' written' e' = rendered inclusive scope written e := by
    refine rendered_congr (fun p => ?_) fun p hp => ?_
    · simp only [mem_utilized, pfx, lists, attributes.perm.mem_iff]
    · rw [declaration?, declaration?, bound p (mem_utilized.1 hp), known, known]
  rw [Opening.ofElement, Opening.ofElement, name, declarations, sortedAttributes_congr attributes]

theorem bindings_congr (same : Opening.ofElement inclusive' scope' written' e' =
      Opening.ofElement inclusive scope written e) (known : ∀ p, written'.uri? p = written.uri? p)
    (p : String) : ((Opening.ofElement inclusive' scope' written' e').bindings written').uri? p =
      ((Opening.ofElement inclusive scope written e).bindings written).uri? p := by
  have declarations : rendered inclusive' scope' written' e' = rendered inclusive scope written e :=
    congrArg Opening.declarations same
  rw [uri?_bindings_eq, uri?_bindings_eq, declarations, known]

end Opening

end SamlSeal.Canonical

namespace SamlSeal.Xml.Document

open Canonical

variable {d d' : Document}

/-! ### The same content -/

/-- The nodes of a list but for the excluded one. -/
def without (excluded : Option NodeId) (ids : List NodeId) : List NodeId :=
  ids.filter fun id => excluded ≠ some id

/-- Nodes of two documents correspond one by one: elements with the same name, the same attributes,
the same bindings of the prefixes that matter, and the same content without the excluded nodes;
comments and processing instructions that are the same; and texts that are the same when each run of
them is joined.  Declarations do not count, and neither does anything outside the nodes. -/
inductive SameContent (d d' : Document) (excluded excluded' : Option NodeId)
    (inclusive : List String) : List NodeId → List NodeId → Prop
  | nil : SameContent d d' excluded excluded' inclusive [] []
  | element {x y : NodeId} {e e' : Element} {xs ys : List NodeId}
    (hx : d.element? x = some e) (hy : d'.element? y = some e') (name : e'.name = e.name)
    (attributes : SameAttributes e.attributes e'.attributes)
    (bound : ∀ p, Matters (inclusivePrefixes inclusive) e p →
      (d'.scopeAt y).uri? p = (d.scopeAt x).uri? p)
    (inner : SameContent d d' excluded excluded' inclusive (without excluded (d.children x))
      (without excluded' (d'.children y)))
    (next : SameContent d d' excluded excluded' inclusive xs ys) :
    SameContent d d' excluded excluded' inclusive (x :: xs) (y :: ys)
  | comment {x y : NodeId} {content : String} {xs ys : List NodeId}
    (hx : d.kind? x = some (.comment content)) (hy : d'.kind? y = some (.comment content))
    (next : SameContent d d' excluded excluded' inclusive xs ys) :
    SameContent d d' excluded excluded' inclusive (x :: xs) (y :: ys)
  | instruction {x y : NodeId} {target : String} {data : Option String} {xs ys : List NodeId}
    (hx : d.kind? x = some (.instruction target data))
    (hy : d'.kind? y = some (.instruction target data))
    (next : SameContent d d' excluded excluded' inclusive xs ys) :
    SameContent d d' excluded excluded' inclusive (x :: xs) (y :: ys)
  | texts {us vs : List NodeId} {ss ts : List String} {xs ys : List NodeId}
    (hu : List.Forall₂ (fun u s => d.kind? u = some (.text s)) us ss)
    (hv : List.Forall₂ (fun v t => d'.kind? v = some (.text t)) vs ts)
    (same : String.join ss = String.join ts)
    (next : SameContent d d' excluded excluded' inclusive xs ys) :
    SameContent d d' excluded excluded' inclusive (us ++ xs) (vs ++ ys)

/-! ### What is written of the same content -/

theorem mem_without {excluded : Option NodeId} {ids : List NodeId} {x : NodeId} :
    x ∈ without excluded ids ↔ x ∈ ids ∧ excluded ≠ some x := by
  simp [without]

theorem shows_without (linked : d.Linked) (excluded : Option NodeId) (x : NodeId) :
    d.Shows (without excluded (d.children x)) (d.view (without excluded (d.children x))) :=
  view_shows linked fun _ hc => linked.child_lt_size (mem_without.1 hc).1

/-- Inside an element the excluded node leaves nothing. -/
theorem retain_without {excluded : Option NodeId} (comments : Bool) {ids : List NodeId}
    {f g : Forest (NodeId × Kind)} (hf : d.Shows ids f) (hg : d.Shows (without excluded ids) g) :
    retain excluded comments .inside f = retain excluded comments .inside g := by
  induction hf generalizing g with
  | nil =>
    cases hg
    rfl
  | @node id kind ids inner next hk hi hn _ ihNext =>
    rw [without, List.filter_cons] at hg
    by_cases out : excluded = some id
    · rw [if_neg (by simpa using out)] at hg
      rw [retain_node, if_pos out]
      exact ihNext hg
    · rw [if_pos (by simpa using out)] at hg
      obtain ⟨inner', next', rfl, hi', hn'⟩ := hg.cons_cases hk
      obtain rfl := hi.unique hi'
      have rest := ihNext hn'
      rw [retain_node, retain_node, if_neg out, if_neg out]
      cases kind <;> simp only [Place.next, framed, rest]

section Write

variable {excluded : Option NodeId} {inclusive : List String} {scope written : Scope}

/-- A run of texts is written as the text that they make together. -/
theorem write_texts (comments : Bool) {us xs : List NodeId} {ss : List String}
    (texts : List.Forall₂ (fun u s => d.kind? u = some (.text s)) us ss)
    (kept : ∀ u ∈ us ++ xs, excluded ≠ some u) {f : Forest (NodeId × Kind)}
    (hf : d.Shows (us ++ xs) f) : ∃ g, d.Shows xs g ∧
      Canonical.write (render inclusive scope written (retain excluded comments .inside f)) =
        Escape.text (String.join ss).toList ++
          Canonical.write (render inclusive scope written (retain excluded comments .inside g)) := by
  induction texts generalizing f with
  | nil => exact ⟨f, hf, by simp [Escape.text]⟩
  | @cons u s us ss hu _ ih =>
    obtain ⟨inner, next, rfl, -, hn⟩ := hf.cons_cases hu
    obtain ⟨g, hg, rest⟩ := ih (fun u hu => kept u (List.mem_cons_of_mem _ hu)) hn
    refine ⟨g, hg, ?_⟩
    rw [retain_node, if_neg (kept u List.mem_cons_self)]
    simp only [Place.next, if_true, render, Canonical.write, rest, String.toList_join,
      List.flatMap_cons, Escape.text_append, List.append_assoc]

end Write

/-- The same content is written alike, as long as the start tags around it make the same
bindings. -/
theorem SameContent.write_eq (linked : d.Linked) (linked' : d'.Linked)
    {excluded excluded' : Option NodeId} {inclusive inclusive' : List String}
    (lists : ∀ p, p ∈ inclusivePrefixes inclusive' ↔ p ∈ inclusivePrefixes inclusive)
    (comments : Bool) {xs ys : List NodeId}
    (same : SameContent d d' excluded excluded' inclusive xs ys)
    (kept : ∀ x ∈ xs, excluded ≠ some x) (kept' : ∀ y ∈ ys, excluded' ≠ some y)
    {f g : Forest (NodeId × Kind)} (hf : d.Shows xs f) (hg : d'.Shows ys g)
    {scope scope' written written' : Scope} (around : ∀ x ∈ xs, d.scopeAround x = scope)
    (around' : ∀ y ∈ ys, d'.scopeAround y = scope')
    (known : ∀ p, written'.uri? p = written.uri? p) :
    Canonical.write (render (inclusivePrefixes inclusive') scope' written'
        (retain excluded' comments .inside g)) =
      Canonical.write (render (inclusivePrefixes inclusive) scope written
        (retain excluded comments .inside f)) := by
  induction same generalizing f g scope scope' written written' with
  | nil =>
    cases hf
    cases hg
    rfl
  | @element x y e e' xs ys hx hy name attributes bound _ _ ihInner ihNext =>
    obtain ⟨keptx, kept⟩ := List.forall_mem_cons.1 kept
    obtain ⟨kepty, kept'⟩ := List.forall_mem_cons.1 kept'
    obtain ⟨here, around⟩ := List.forall_mem_cons.1 around
    obtain ⟨here', around'⟩ := List.forall_mem_cons.1 around'
    obtain ⟨inner, next, rfl, hi, hn⟩ := hf.cons_cases (kind?_of_element? hx)
    obtain ⟨inner', next', rfl, hi', hn'⟩ := hg.cons_cases (kind?_of_element? hy)
    have inside : d.scopeAt x = scope.declare e.declarations := by
      rw [scopeAt_of_element linked hx, here]
    have inside' : d'.scopeAt y = scope'.declare e'.declarations := by
      rw [scopeAt_of_element linked' hy, here']
    rw [inside, inside'] at bound
    have tag := ofElement_congr name attributes lists bound known
    -- what is inside the two elements, in the bindings that their own start tags add
    have left := shows_without linked excluded x
    have left' := shows_without linked' excluded' y
    have content := ihInner (fun c hc => (mem_without.1 hc).2) (fun c hc => (mem_without.1 hc).2)
      left left'
      (fun c hc => (scopeAround_of_parent
        (linked.mem_children_iff.1 (mem_without.1 hc).1)).trans inside)
      (fun c hc => (scopeAround_of_parent
        (linked'.mem_children_iff.1 (mem_without.1 hc).1)).trans inside')
      (bindings_congr tag known)
    rw [← retain_without comments hi left, ← retain_without comments hi' left', tag] at content
    have rest := ihNext kept kept' hn hn' around around' known
    rw [retain_node, retain_node, if_neg keptx, if_neg kepty]
    simp only [render, Canonical.write, Place.next, tag, content, rest]
  | @comment x y content xs ys hx hy _ ihNext =>
    obtain ⟨keptx, kept⟩ := List.forall_mem_cons.1 kept
    obtain ⟨kepty, kept'⟩ := List.forall_mem_cons.1 kept'
    obtain ⟨inner, next, rfl, -, hn⟩ := hf.cons_cases hx
    obtain ⟨inner', next', rfl, -, hn'⟩ := hg.cons_cases hy
    have rest := ihNext kept kept' hn hn' (List.forall_mem_cons.1 around).2
      (List.forall_mem_cons.1 around').2 known
    rw [retain_node, retain_node, if_neg keptx, if_neg kepty]
    cases comments <;> simpa [Place.next, framed, render, Canonical.write] using rest
  | @instruction x y target data xs ys hx hy _ ihNext =>
    obtain ⟨keptx, kept⟩ := List.forall_mem_cons.1 kept
    obtain ⟨kepty, kept'⟩ := List.forall_mem_cons.1 kept'
    obtain ⟨inner, next, rfl, -, hn⟩ := hf.cons_cases hx
    obtain ⟨inner', next', rfl, -, hn'⟩ := hg.cons_cases hy
    have rest := ihNext kept kept' hn hn' (List.forall_mem_cons.1 around).2
      (List.forall_mem_cons.1 around').2 known
    rw [retain_node, retain_node, if_neg keptx, if_neg kepty]
    simp only [Place.next, framed, render, Canonical.write, rest]
  | @texts us vs ss ts xs ys hu hv same _ ihNext =>
    obtain ⟨f', hf', written⟩ := write_texts comments hu kept hf
    obtain ⟨g', hg', written'⟩ := write_texts comments hv kept' hg
    rw [written, written', same, ihNext (fun x hx => kept x (List.mem_append_right _ hx))
      (fun y hy => kept' y (List.mem_append_right _ hy)) hf' hg'
      (fun x hx => around x (List.mem_append_right _ hx))
      (fun y hy => around' y (List.mem_append_right _ hy)) known]

/-- A canonical form depends on the content of the element alone.  The order of the attributes, the
division of texts, declarations that are not used, all that is outside the element, and the order of
the prefixes that are taken along make no difference. -/
theorem canonical_eq_of_sameContent (hd : d.Reachable) (hd' : d'.Reachable) {a a' : NodeId}
    {e e' : Element} (he : d.element? a = some e) (he' : d'.element? a' = some e')
    {excluded excluded' : Option NodeId} {inclusive inclusive' : List String}
    (lists : ∀ p, p ∈ inclusive' ↔ p ∈ inclusive)
    (same : SameContent d d' excluded excluded' inclusive (without excluded [a])
      (without excluded' [a'])) (comments : Bool) :
    d'.canonical a' excluded' comments inclusive' = d.canonical a excluded comments inclusive := by
  have linked := hd.linked
  have linked' := hd'.linked
  have prefixes (p : String) :
      p ∈ inclusivePrefixes inclusive' ↔ p ∈ inclusivePrefixes inclusive := by
    simp only [inclusivePrefixes, List.mem_map, lists]
  have hk := kind?_of_element? he
  have hk' := kind?_of_element? he'
  have inside : d.place a = .inside := by rw [place, hk]
  have inside' : d'.place a' = .inside := by rw [place, hk']
  have lt : ∀ x ∈ without excluded [a], x < d.size := fun x hx =>
    List.mem_singleton.1 (mem_without.1 hx).1 ▸ lt_size_of_kind? hk
  have lt' : ∀ y ∈ without excluded' [a'], y < d'.size := fun y hy =>
    List.mem_singleton.1 (mem_without.1 hy).1 ▸ lt_size_of_kind? hk'
  have written := same.write_eq linked linked' prefixes comments
    (fun x hx => (mem_without.1 hx).2) (fun y hy => (mem_without.1 hy).2)
    (view_shows linked lt) (view_shows linked' lt')
    (fun x hx => by rw [List.mem_singleton.1 (mem_without.1 hx).1])
    (fun y hy => by rw [List.mem_singleton.1 (mem_without.1 hy).1])
    (fun p => (rfl : Scope.uri? [] p = Scope.uri? [] p))
  rw [← retain_without comments (shows_singleton linked hk) (view_shows linked lt),
    ← retain_without comments (shows_singleton linked' hk') (view_shows linked' lt')] at written
  rw [canonical, canonical, hk, hk', Document.rendered, Document.rendered, retained, retained,
    inside, inside', written]
  rfl

/-- An element inside another one, with a child in the middle of its text. -/
def wrapped : Document := ofForest
  (.node (.element ⟨⟨none, "q", none⟩, [], [⟨"p", "urn:p"⟩, ⟨"u", "urn:u"⟩]⟩)
    (.node (.element ⟨⟨some "p", "a", some "urn:p"⟩,
        [⟨⟨none, "y", none⟩, "1"⟩, ⟨⟨none, "x", none⟩, "2"⟩], []⟩)
      (.node (.text "a") .nil (.node (.element ⟨⟨none, "s", none⟩, [], []⟩) .nil
        (.node (.text "b") .nil .nil))) .nil) .nil)

/-- The same element by itself, without the child. -/
def standalone : Document := ofForest
  (.node (.element ⟨⟨some "p", "a", some "urn:p"⟩,
      [⟨⟨none, "x", none⟩, "2"⟩, ⟨⟨none, "y", none⟩, "1"⟩], [⟨"p", "urn:p"⟩]⟩)
    (.node (.text "ab") .nil .nil) .nil)

theorem canonical_wrapped :
    parse "<q xmlns:p='urn:p' xmlns:u='urn:u'><p:a y='1' x='2'>a<s/>b</p:a></q>" = .ok wrapped ∧
    parse "<p:a xmlns:p='urn:p' x='2' y='1'>ab</p:a>" = .ok standalone ∧
    standalone.canonical 1 none false ["#default", "p", "p"] =
      wrapped.canonical 2 (some 4) false ["p", "#default"] := by
  have read : parse "<q xmlns:p='urn:p' xmlns:u='urn:u'><p:a y='1' x='2'>a<s/>b</p:a></q>" =
    .ok wrapped := parse_eq_ok (by decide +kernel)
  have read' : parse "<p:a xmlns:p='urn:p' x='2' y='1'>ab</p:a>" = .ok standalone :=
    parse_eq_ok (by decide +kernel)
  refine ⟨read, read', canonical_eq_of_sameContent (.parse read) (.parse read') rfl rfl
    (fun p => by simp [or_comm]) ?_ _⟩
  refine .element (x := 2) (y := 1) rfl rfl rfl (.inr ⟨.swap .., by decide⟩) ?_ ?_ .nil
  · rintro p ⟨rfl | ⟨a, ha, rfl, ne⟩ | hp, -⟩
    · decide +kernel
    · rcases List.mem_pair.1 ha with rfl | rfl <;> exact absurd rfl ne
    · rcases List.mem_pair.1 hp with rfl | rfl <;> decide +kernel
  · -- the two texts around the excluded child, and the one text that they make
    have texts : List.Forall₂ (fun u s => wrapped.kind? u = some (.text s)) [3, 5] ["a", "b"] :=
      .cons rfl (.cons rfl .nil)
    have text : List.Forall₂ (fun v t => standalone.kind? v = some (.text t)) [2] ["ab"] :=
      .cons rfl .nil
    exact .texts texts text (by decide) .nil

/-- Two elements with the same attributes in different order, one of them in the empty namespace and
one in none. -/
def reordered : Document :=
  let plain : Attribute := ⟨⟨none, "x", none⟩, "2"⟩
  let prefixed : Attribute := ⟨⟨some "p", "x", some ""⟩, "1"⟩
  ofForest (.node (.element ⟨⟨none, "r", none⟩, [], []⟩)
    (.node (.element ⟨⟨none, "a", none⟩, [plain, prefixed], []⟩) .nil
      (.node (.element ⟨⟨none, "a", none⟩, [prefixed, plain], []⟩) .nil .nil)) .nil)

/-- The empty namespace counts as none when attributes are put in order, although the two tell names
apart: of such attributes the order of the source is kept. -/
theorem canonical_reordered :
    parse "<r><a xmlns:p='' x='2' p:x='1'/><a xmlns:p='' p:x='1' x='2'/></r>" = .ok reordered ∧
    (∃ e e', reordered.element? 2 = some e ∧ reordered.element? 3 = some e' ∧ e'.name = e.name ∧
      e.attributes.Perm e'.attributes ∧
      (e.attributes.map fun a => (a.name.uri, a.name.localName)).Nodup) ∧
    reordered.scopeAt 3 = reordered.scopeAt 2 ∧
    reordered.children 2 = [] ∧ reordered.children 3 = [] ∧
    reordered.canonical 2 none false [] = .ok "<a x=\"2\" p:x=\"1\"></a>" ∧
    reordered.canonical 3 none false [] = .ok "<a p:x=\"1\" x=\"2\"></a>" := by
  refine ⟨parse_eq_ok (by decide +kernel), ⟨_, _, rfl, rfl, rfl, .swap .., by decide⟩, rfl, rfl,
    rfl, ?_, ?_⟩
  · exact canonical_eq_ok rfl (by decide +kernel)
  · exact canonical_eq_ok rfl (by decide +kernel)

end SamlSeal.Xml.Document
