import Mathlib.Data.List.Nodup
import SamlSeal.Proofs.Scope

/-!
# Declarations in canonical form

Which namespaces the start tags of a canonical form declare.  What the tags say is looked up in the
tags alone: the declarations of a tag and of the tags around it, the nearest one first (`resolve?`).
What a tag declares is read off the names in it (`Opening.declared`), so an attribute whose name is
`xmlns` or starts with `xmlns:` counts as a declaration.

* `Sound`: the names of an element mean in the written tags what they mean in the document,
* `Minimal`: no declaration is written that is not needed for that,
* `Document.rendered_declarations`: both hold for every start tag that is written, as long as no
  attribute has the name of a declaration.  `rendered_declarations_eclipsed` is a document with such
  an attribute.
-/

namespace SamlSeal.Canonical

open Xml

/-! ### Attributes in order -/

theorem pairwise_sort_writtenAttribute (as : List WrittenAttribute) :
    (Sorting.sort WrittenAttribute.le as).Pairwise (WrittenAttribute.le · ·) := by
  refine Sorting.pairwise_sort (fun a b c hab hbc => ?_) (fun a b => ?_) as
  · simp only [WrittenAttribute.le, Bool.or_eq_true, Bool.and_eq_true, decide_eq_true_eq,
      beq_iff_eq] at hab hbc ⊢
    rcases hab with lt | ⟨eq, le⟩ <;> rcases hbc with lt' | ⟨eq', le'⟩
    · exact .inl (String.lt_trans lt lt')
    · exact .inl (eq' ▸ lt)
    · exact .inl (eq ▸ lt')
    · exact .inr ⟨eq.trans eq', String.le_trans le le'⟩
  · simp only [WrittenAttribute.le, Bool.or_eq_true, Bool.and_eq_true, decide_eq_true_eq,
      beq_iff_eq]
    by_cases eq : a.uri = b.uri
    · exact (String.le_total a.localName b.localName).imp (fun le => .inr ⟨eq, le⟩)
        fun le => .inr ⟨eq.symm, le⟩
    · by_cases lt : a.uri < b.uri
      · exact .inl (.inl lt)
      · refine .inr (.inl (String.not_le.1 fun le => eq (String.le_antisymm le ?_)))
        exact String.not_lt.1 lt

/-! ### What written tags say -/

/-- The declaration of a prefix in those of some start tags, from the innermost to the outermost. -/
def resolve? (path : List (List Declaration)) (p : String) : Option String :=
  path.findSome? (Scope.uri? · p)

/-- The namespace that a prefix is bound to inside some start tags; the empty one is none. -/
def bound? (path : List (List Declaration)) (p : String) : Option String :=
  (resolve? path p).filter (· != "")

theorem resolve?_cons (ds : List Declaration) (path : List (List Declaration)) (p : String) :
    resolve? (ds :: path) p = (Scope.uri? ds p).or (resolve? path p) := by
  rw [resolve?, List.findSome?_cons]
  cases Scope.uri? ds p <;> rfl

/-- The names of an element mean by the given declarations what they mean in the document, and so do
the prefixes that are always taken along.  The prefix `xml` needs no declaration. -/
structure Sound (path : List (List Declaration)) (inclusive : List String) (scope : Scope)
    (e : Element) : Prop where
  element : elementPfx e ≠ "xml" → bound? path (elementPfx e) = e.name.uri.filter (· != "")
  attributes : ∀ a ∈ e.attributes, attributePfx a ≠ "xml" → attributePfx a ≠ "" →
    bound? path (attributePfx a) = a.name.uri
  unprefixed : ∀ a ∈ e.attributes, attributePfx a = "" → a.name.uri = none
  inclusive : ∀ p ∈ inclusive, p ≠ "xml" → ∀ uri, scope.uri? p = some uri →
    bound? path p = some uri

/-- Nothing is declared but what matters at the element and what is not declared around it
already. -/
structure Minimal (ds : List Declaration) (around : List (List Declaration))
    (inclusive : List String) (e : Element) : Prop where
  utilized : ∀ d ∈ ds, d.pfx = elementPfx e ∨
    (∃ a ∈ e.attributes, attributePfx a = d.pfx ∧ d.pfx ≠ "") ∨ d.pfx ∈ inclusive
  new : ∀ d ∈ ds, resolve? around d.pfx ≠ some d.uri
  undeclared : ∀ d ∈ ds, d.uri = "" → d.pfx = "" ∧ (bound? around "").isSome
  notXml : ∀ d ∈ ds, d.pfx ≠ "xml"
  /-- The prefixes ascend, so that none is declared twice. -/
  ascending : ds.Pairwise fun d d' => d.pfx < d'.pfx

/-- The start tag of an element, with the tags around it, declares what the element needs and
nothing else.  The tag is made of the name of the element, the declarations, and the attributes. -/
structure Opening.Declares (path : List Opening) (inclusive : List String) (scope : Scope)
    (e : Element) : Prop where
  sound : Sound (path.map declared) inclusive scope e
  tag : ∃ o around, path = o :: around ∧
    Minimal o.declared (around.map declared) inclusive e ∧
    o.write = '<' :: (e.name.qualified.toList ++
      (o.pairs.flatMap (fun p => writeAttribute p.1 p.2) ++ ['>'])) ∧
    o.pairs = o.declared.map (fun d => (declarationName d, d.uri)) ++
      (sortedAttributes e).map fun a => (a.qualified, a.value)

/-! ### One start tag -/

theorem nodup_eraseDups (ps : List String) : ps.eraseDups.Nodup := by
  -- on the length, as the rest of the list is filtered
  induction h : ps.length using Nat.strongRecOn generalizing ps with
  | _ n ih =>
    cases ps with
    | nil => exact .nil
    | cons p ps =>
      rw [List.eraseDups_cons]
      have shorter : (ps.filter fun q => !q == p).length < n := by
        rw [← h, List.length_cons]
        exact Nat.lt_succ_of_le (List.length_filter_le _ _)
      refine List.nodup_cons.2 ⟨fun mem => ?_, ih _ shorter _ rfl⟩
      simpa using (List.mem_filter.1 (List.mem_eraseDups.1 mem)).2

section Tag

variable {inclusive : List String} {scope written : Scope} {e : Element}
  {around : List (List Declaration)}

theorem mem_utilized {p : String} : p ∈ utilized inclusive e ↔
    (p = elementPfx e ∨ (∃ a ∈ e.attributes, attributePfx a = p ∧ p ≠ "") ∨ p ∈ inclusive) ∧
      p ≠ "xml" := by
  simp only [utilized, List.mem_filter, List.mem_eraseDups, List.cons_append, List.mem_cons,
    List.mem_append, List.mem_map, bne_iff_ne, ne_eq]
  grind

theorem nodup_utilized (inclusive : List String) (e : Element) : (utilized inclusive e).Nodup :=
  (nodup_eraseDups _).filter _

theorem nodup_rendered : ((rendered inclusive scope written e).map (·.pfx)).Nodup := by
  refine ((Sorting.sort_perm _ _).map _).nodup_iff.2 ?_
  rw [List.map_filterMap]
  refine List.Nodup.filterMap (fun p q r hp hq => ?_) (nodup_utilized inclusive e)
  obtain ⟨d, hd, rfl⟩ := Option.map_eq_some_iff.1 hp
  obtain ⟨d', hd', eq⟩ := Option.map_eq_some_iff.1 hq
  rw [← pfx_of_declaration? hd, ← pfx_of_declaration? hd', eq]

theorem ascending_rendered :
    (rendered inclusive scope written e).Pairwise fun d d' => d.pfx < d'.pfx := by
  have sorted : (rendered inclusive scope written e).Pairwise (Declaration.le · ·) :=
    Scope.pairwise_sort_le _
  refine List.Pairwise.imp₂ (fun a b le ne => ?_) sorted (List.pairwise_map.1 nodup_rendered)
  simp only [Declaration.le, decide_eq_true_eq] at le
  exact String.not_le.1 fun ge => ne (String.le_antisymm le ge)

/-- The declarations that are written depend on the prefixes that matter and on what is declared of
each, not on any order. -/
theorem rendered_congr {inclusive' : List String} {scope' written' : Scope} {e' : Element}
    (matter : ∀ p, p ∈ utilized inclusive' e' ↔ p ∈ utilized inclusive e)
    (same : ∀ p ∈ utilized inclusive e,
      declaration? scope' written' p = declaration? scope written p) :
    rendered inclusive' scope' written' e' = rendered inclusive scope written e := by
  have perm : (utilized inclusive' e').Perm (utilized inclusive e) :=
    (List.perm_ext_iff_of_nodup (nodup_utilized _ _) (nodup_utilized _ _)).2 matter
  have each : (utilized inclusive e).filterMap (declaration? scope' written') =
      (utilized inclusive e).filterMap (declaration? scope written) := List.filterMap_congr same
  rw [rendered, rendered, ← each]
  refine Scope.sort_eq_of_perm ?_ (perm.filterMap _)
  exact ((Sorting.sort_perm _ _).map _).nodup_iff.1 nodup_rendered

/-- The bindings after a start tag: those that it makes, then those around it. -/
theorem uri?_bindings_eq (p : String) :
    ((Opening.ofElement inclusive scope written e).bindings written).uri? p =
      (Scope.uri? (rendered inclusive scope written e) p).or (written.uri? p) := by
  have single : Scope.Single (rendered inclusive scope written e) p :=
    Scope.single_of_nodup nodup_rendered p
  cases found : Scope.uri? (rendered inclusive scope written e) p with
  | none => exact uri?_foldl_bind_of_ne (Scope.uri?_eq_none_iff.1 found)
  | some uri =>
    refine uri?_foldl_bind (fun d hd eq => ?_) (.inr ⟨⟨p, uri⟩, Scope.mem_of_uri? found, rfl⟩)
    exact Option.some.inj ((single d hd eq).symm.trans found)

/-- The bindings that were kept track of are those that the written declarations make. -/
theorem resolve?_rendered (known : ∀ p, written.uri? p = resolve? around p) (p : String) :
    ((Opening.ofElement inclusive scope written e).bindings written).uri? p =
      resolve? (rendered inclusive scope written e :: around) p := by
  rw [resolve?_cons, ← known]
  exact uri?_bindings_eq p

/-- A prefix that matters at an element means by the written declarations what it means in the
document. -/
theorem bound?_rendered (known : ∀ p, written.uri? p = resolve? around p) (proper : scope.Proper)
    {p : String} (hp : p ∈ utilized inclusive e) (ends : scope.uri? p = none → p = "") :
    bound? (rendered inclusive scope written e :: around) p = scope.uri? p := by
  rw [bound?, ← resolve?_rendered known, ← proper.filter_uri?]
  refine Scope.filter_congr ?_
  cases bound : scope.uri? p with
  | some uri => rw [uri?_bindings hp bound]
  | none =>
    obtain rfl := ends bound
    exact default_bindings hp bound

theorem sound_rendered (known : ∀ p, written.uri? p = resolve? around p) (proper : scope.Proper)
    (consistent : e.Consistent scope) :
    Sound (rendered inclusive scope written e :: around) inclusive scope e := by
  refine ⟨fun notXml => ?_, fun a ha notXml ne => ?_, fun a ha empty => ?_,
    fun p hp notXml uri bound => ?_⟩
  · have mem : elementPfx e ∈ utilized inclusive e := mem_utilized.2 ⟨.inl rfl, notXml⟩
    by_cases empty : elementPfx e = ""
    · rw [bound?_rendered known proper mem fun _ => empty, empty, ← proper.filter_uri?]
      exact Scope.filter_congr (consistent.unprefixed empty)
    · obtain ⟨uri, huri, bound⟩ := consistent.prefixed empty notXml
      rw [bound?_rendered known proper mem (by simp [bound]), huri, ← bound, proper.filter_uri?]
  · rcases attributePfx_bound consistent ha with ⟨eq, -⟩ | ⟨eq, -⟩ | ⟨uri, huri, bound, -⟩
    · exact absurd eq ne
    · exact absurd eq notXml
    · have mem : attributePfx a ∈ utilized inclusive e :=
        mem_utilized.2 ⟨.inr (.inl ⟨a, ha, rfl, ne⟩), notXml⟩
      rw [bound?_rendered known proper mem (by simp [bound]), bound, huri]
  · rcases attributePfx_bound consistent ha with ⟨-, none⟩ | ⟨eq, -⟩ | ⟨uri, -, -, ne⟩
    · exact none
    · exact absurd (eq.symm.trans empty) (by decide)
    · exact absurd empty ne
  · have mem : p ∈ utilized inclusive e := mem_utilized.2 ⟨.inr (.inr hp), notXml⟩
    rw [bound?_rendered known proper mem (by simp [bound]), bound]

theorem minimal_rendered (known : ∀ p, written.uri? p = resolve? around p)
    (proper : scope.Proper) : Minimal (rendered inclusive scope written e) around inclusive e := by
  have listed : ∀ d ∈ rendered inclusive scope written e, d.pfx ∈ utilized inclusive e :=
    fun d hd => (mem_rendered.1 hd).1
  refine ⟨fun d hd => (mem_utilized.1 (listed d hd)).1, fun d hd => ?_, fun d hd empty => ?_,
    fun d hd => (mem_utilized.1 (listed d hd)).2, ascending_rendered⟩
  · rw [← known]
    rcases cases_rendered hd with ⟨-, new⟩ | ⟨rfl, ended⟩
    · exact new
    · intro same
      simp [same] at ended
  · rcases cases_rendered hd with ⟨bound, -⟩ | ⟨rfl, ended⟩
    · exact absurd empty (proper.nonempty _ (Scope.mem_of_uri? bound))
    · refine ⟨rfl, ?_⟩
      rw [known] at ended
      rw [bound?]
      cases found : resolve? around "" with
      | none => simp [found] at ended
      | some uri => simpa [found] using ended

/-- No attribute of an element is written under the name of a declaration. -/
def Undeclaring (e : Element) : Prop :=
  ∀ a ∈ e.attributes, StartTag.isDeclaration (writtenAttribute a).qualified.toList = false

/-- Then the start tag declares what is rendered. -/
theorem Undeclaring.declared (undeclaring : Undeclaring e) :
    (Opening.ofElement inclusive scope written e).declared = rendered inclusive scope written e := by
  refine Opening.declared_eq fun b hb => ?_
  obtain ⟨a, ha, rfl⟩ := List.mem_map.1 (Sorting.mem_sort.1 hb)
  exact undeclaring a ha

theorem declares_ofElement {around : List Opening}
    (known : ∀ p, written.uri? p = resolve? (around.map Opening.declared) p)
    (proper : scope.Proper) (consistent : e.Consistent scope) (undeclaring : Undeclaring e) :
    Opening.Declares (Opening.ofElement inclusive scope written e :: around) inclusive scope e where
  sound := by
    rw [List.map_cons, undeclaring.declared]
    exact sound_rendered known proper consistent
  tag := by
    refine ⟨_, _, rfl, ?_, Opening.write_eq _, ?_⟩
    · rw [undeclaring.declared]
      exact minimal_rendered known proper
    · rw [undeclaring.declared]
      rfl

end Tag

/-! ### All start tags -/

/-- The start tags in the order in which they are written, each with the tags around it, from the
innermost to the outermost. -/
def openings (around : List Opening) : Forest (Piece Opening) → List (List Opening)
  | .nil => []
  | .node (.element o) inner next =>
    (o :: around) :: (openings (o :: around) inner ++ openings around next)
  | .node _ _ next => openings around next

/-- The elements of some nodes in order, those below the excluded node left out. -/
def writtenElements (excluded : Option NodeId) : Forest (NodeId × Kind) → List (NodeId × Element)
  | .nil => []
  | .node (id, kind) inner next =>
    if excluded = some id then writtenElements excluded next
    else match kind with
      | .element e => (id, e) :: (writtenElements excluded inner ++ writtenElements excluded next)
      | .document => writtenElements excluded inner ++ writtenElements excluded next
      | _ => writtenElements excluded next

theorem writtenElements_node (excluded : Option NodeId) (id : NodeId) (kind : Kind)
    (inner next : Forest (NodeId × Kind)) :
    writtenElements excluded (.node (id, kind) inner next) =
      if excluded = some id then writtenElements excluded next
      else match kind with
        | .element e => (id, e) :: (writtenElements excluded inner ++ writtenElements excluded next)
        | .document => writtenElements excluded inner ++ writtenElements excluded next
        | _ => writtenElements excluded next := by
  cases kind <;> rfl

theorem openings_append (around : List Opening) (f g : Forest (Piece Opening)) :
    openings around (f ++ g) = openings around f ++ openings around g := by
  induction f generalizing around with
  | nil => rfl
  | node piece inner next _ ih =>
    rw [Forest.node_append]
    cases piece <;> simp only [openings, ih, List.cons_append, List.append_assoc]

theorem render_append (inclusive : List String) (scope written : Scope)
    (f g : Forest (Piece Element)) : render inclusive scope written (f ++ g) =
      render inclusive scope written f ++ render inclusive scope written g := by
  induction f generalizing scope written with
  | nil => rfl
  | node piece inner next _ ih =>
    rw [Forest.node_append]
    cases piece <;> simp only [render, ih, Forest.node_append]

/-- Comments and processing instructions bring no start tags. -/
theorem openings_framed (inclusive : List String) (scope written : Scope) (around : List Opening)
    (place : Place) {piece : Piece Element} (leaf : ∀ e, piece ≠ .element e)
    (siblings : Forest (NodeId × Kind)) (rest : Forest (Piece Element)) :
    openings around (render inclusive scope written (framed place piece siblings rest)) =
      openings around (render inclusive scope written rest) := by
  have node (piece : Piece Element) (leaf : ∀ e, piece ≠ .element e)
      (rest : Forest (Piece Element)) :
      openings around (render inclusive scope written (.node piece .nil rest)) =
        openings around (render inclusive scope written rest) := by
    cases piece with
    | element e => exact absurd rfl (leaf e)
    | _ => rfl
  have lineBreak := node .lineBreak (by simp)
  cases place with
  | inside => exact node piece leaf rest
  | outside before after =>
    simp only [framed]
    split <;> split <;> simp only [node piece leaf, lineBreak]

end SamlSeal.Canonical

namespace SamlSeal.Xml.Document

open Canonical

variable {d : Document}

/-- A property of the start tag of an element, and something known of the tags around it and of the
bindings that were kept track of: if every start tag has the property and passes the knowledge on,
all start tags that are written of some nodes have the property. -/
theorem forall₂_openings (linked : d.Linked) {apex : NodeId} {excluded : Option NodeId}
    {comments : Bool} {inclusive : List String} {Known : Scope → List Opening → Prop}
    {P : List Opening → NodeId × Element → Prop}
    (tag : ∀ x e written around, d.Written apex excluded x → d.element? x = some e →
      Known written around →
        P (Opening.ofElement inclusive (d.scopeAt x) written e :: around) (x, e) ∧
        Known ((Opening.ofElement inclusive (d.scopeAt x) written e).bindings written)
          (Opening.ofElement inclusive (d.scopeAt x) written e :: around))
    {ids : List NodeId} {f : Forest (NodeId × Kind)} (hf : d.Shows ids f) (place : Place)
    {scope written : Scope} {around : List Opening} (known : Known written around)
    (below : ∀ a ∈ ids, d.Below apex a ∧ d.scopeAround a = scope)
    (top : ∀ a ∈ ids, ∀ s ∈ excluded, d.Below apex s → d.Below s a → a = s) :
    List.Forall₂ P
      (openings around (render inclusive scope written (retain excluded comments place f)))
      (writtenElements excluded f) := by
  induction hf generalizing place scope written around with
  | nil => exact .nil
  | @node id kind ids inner next hk hi hn ihInner ihNext =>
    have rest := ihNext (place.next kind) known (fun a ha => below a (List.mem_cons_of_mem _ ha))
      fun a ha => top a (List.mem_cons_of_mem _ ha)
    obtain ⟨hid, hscope⟩ := below id List.mem_cons_self
    rw [retain_node, writtenElements_node]
    by_cases ex : excluded = some id
    · rw [if_pos ex, if_pos ex]
      exact rest
    rw [if_neg ex, if_neg ex]
    have written : d.Written apex excluded id :=
      ⟨hid, fun s hs hb hbi => ex (top id List.mem_cons_self s hs hb hbi ▸ hs)⟩
    have children : ∀ c ∈ d.children id, d.Below apex c ∧ d.scopeAround c = d.scopeAt id :=
      fun c hc => ⟨hid.child linked hc, scopeAround_of_parent (linked.mem_children_iff.1 hc)⟩
    have inside : ∀ c ∈ d.children id, ∀ s ∈ excluded, d.Below apex s → d.Below s c → c = s :=
      fun c hc s hs hb hbc => (hbc.cases_child linked hc).resolve_right (written.2 s hs hb)
    cases kind with
    | document =>
      have same : d.scopeAt id = scope := by
        rw [scopeAt_eq linked, element?, hk, ← hscope]
        rfl
      rw [same] at children
      simp only [render_append, openings_append]
      exact List.rel_append (ihInner _ known children inside) rest
    | element e =>
      have he : d.element? id = some e := element?_of_kind? hk
      have scopeAt : d.scopeAt id = scope.declare e.declarations := by
        rw [scopeAt_of_element linked he, hscope]
      obtain ⟨here, passed⟩ := tag id e _ around written he known
      rw [scopeAt] at children here passed
      exact .cons here (List.rel_append (ihInner .inside passed children inside) rest)
    | text content =>
      dsimp only
      split
      · exact rest
      · exact rest
    | comment content =>
      dsimp only
      split
      · rw [openings_framed]
        · exact rest
        · simp
      · exact rest
    | instruction target data =>
      dsimp only
      rw [openings_framed]
      · exact rest
      · simp

/-- The start tags in the canonical form of a node, from the outermost one inwards. -/
theorem forall₂_rendered (linked : d.Linked) {apex : NodeId} {e : Element}
    (he : d.element? apex = some e) {excluded : Option NodeId} {comments : Bool}
    {inclusive : List String} (Known : Scope → List Opening → Prop)
    {P : List Opening → NodeId × Element → Prop} (known : Known [] [])
    (tag : ∀ x e written around, d.Written apex excluded x → d.element? x = some e →
      Known written around →
        P (Opening.ofElement (inclusivePrefixes inclusive) (d.scopeAt x) written e :: around)
          (x, e) ∧
        Known
          ((Opening.ofElement (inclusivePrefixes inclusive) (d.scopeAt x) written e).bindings written)
          (Opening.ofElement (inclusivePrefixes inclusive) (d.scopeAt x) written e :: around)) :
    List.Forall₂ P (openings [] (d.rendered apex excluded comments inclusive))
      (writtenElements excluded (d.view [apex])) := by
  refine forall₂_openings linked tag (shows_singleton linked (kind?_of_element? he)) _ known
    (fun a ha => ?_) fun a ha s hs below above => ?_
  · obtain rfl := List.mem_singleton.1 ha
    exact ⟨.refl, rfl⟩
  · obtain rfl := List.mem_singleton.1 ha
    exact Nat.le_antisymm (below.le linked) (above.le linked)

/-- No attribute that is written has the name of a declaration. -/
def UndeclaringBelow (d : Document) (apex : NodeId) (excluded : Option NodeId) : Prop :=
  ∀ x, d.Written apex excluded x → ∀ e, d.element? x = some e → Undeclaring e

/-- Where all names are sound, only an attribute with the prefix `xmlns` could have such a name. -/
theorem OrdinaryBelow.undeclaring (hd : d.Sound) (linked : d.Linked) {apex : NodeId}
    {excluded : Option NodeId} (consistent : d.ConsistentBelow apex)
    (ordinary : d.OrdinaryBelow apex excluded) : d.UndeclaringBelow apex excluded :=
  fun x hx e he a ha => isDeclaration_writtenAttribute (hd.scope linked x).2 (hd.element linked he)
    (consistent x hx.1 e he) ha (ordinary x hx e he a ha)

/-- The start tags in the canonical form of a node declare what its elements need, and nothing
else.  What they declare is read off the names in the tags, among which no attribute may have the
name of a declaration. -/
theorem rendered_declarations (hd : d.Reachable) {apex : NodeId} {e : Element}
    (he : d.element? apex = some e) (consistent : d.ConsistentBelow apex)
    {excluded : Option NodeId} (undeclaring : d.UndeclaringBelow apex excluded) (comments : Bool)
    (inclusive : List String) :
    d.canonical apex excluded comments inclusive =
      .ok (String.ofList (Canonical.write (d.rendered apex excluded comments inclusive))) ∧
    List.Forall₂ (fun path x =>
        Opening.Declares path (inclusivePrefixes inclusive) (d.scopeAt x.1) x.2)
      (openings [] (d.rendered apex excluded comments inclusive))
      (writtenElements excluded (d.view [apex])) := by
  have linked := hd.linked
  refine ⟨canonical_eq_ok (by rw [kind?_of_element? he]; rfl) rfl,
    forall₂_rendered linked he
      (fun written around => ∀ p, written.uri? p = resolve? (around.map Opening.declared) p)
      (fun _ => rfl) ?_⟩
  intro x e written around hx he known
  refine ⟨declares_ofElement known (proper_scope linked x).2 (consistent x hx.1 e he)
    (undeclaring x hx e he), fun p => ?_⟩
  rw [List.map_cons, (undeclaring x hx e he).declared]
  exact resolve?_rendered known p

/-- A document in which a prefix is bound anew and a default namespace ends. -/
def layered : Document := ofForest
  (.node (.element ⟨⟨some "p", "a", some "urn:p"⟩, [],
      [⟨"", "urn:d"⟩, ⟨"p", "urn:p"⟩, ⟨"q", "urn:q"⟩]⟩)
    (.node (.element ⟨⟨none, "b", some "urn:d"⟩, [⟨⟨some "q", "k", some "urn:q"⟩, "1"⟩], []⟩)
      (.node (.element ⟨⟨some "p", "c", some "urn:r"⟩, [], [⟨"p", "urn:r"⟩, ⟨"", ""⟩]⟩)
        (.node (.element ⟨⟨none, "d", some ""⟩, [], []⟩) .nil .nil) .nil)
      (.node (.element ⟨⟨none, "x", some "urn:d"⟩, [], []⟩) .nil .nil)) .nil)

theorem rendered_declarations_layered :
    parse ("<p:a xmlns:p='urn:p' xmlns='urn:d' xmlns:q='urn:q'><b q:k='1'>" ++
      "<p:c xmlns:p='urn:r' xmlns=''><d/></p:c></b><x/></p:a>") = .ok layered ∧
    layered.ConsistentBelow 1 ∧
    layered.canonical 1 (some 5) false ["#default"] =
      .ok ("<p:a xmlns=\"urn:d\" xmlns:p=\"urn:p\"><b xmlns:q=\"urn:q\" q:k=\"1\">" ++
        "<p:c xmlns=\"\" xmlns:p=\"urn:r\"><d></d></p:c></b></p:a>") ∧
    List.Forall₂ (fun path x => Opening.Declares path [""] (layered.scopeAt x.1) x.2)
      (openings [] (layered.rendered 1 (some 5) false ["#default"]))
      (writtenElements (some 5) (layered.view [1])) := by
  have read : parse ("<p:a xmlns:p='urn:p' xmlns='urn:d' xmlns:q='urn:q'><b q:k='1'>" ++
      "<p:c xmlns:p='urn:r' xmlns=''><d/></p:c></b><x/></p:a>") = .ok layered :=
    parse_eq_ok (by decide +kernel)
  have consistent : layered.ConsistentBelow 1 := consistentBelow_of_rows (by decide +kernel) 1
  have undeclaring : layered.UndeclaringBelow 1 (some 5) :=
    OrdinaryBelow.undeclaring (.parse read) (Reachable.parse read).linked consistent
      (ordinaryBelow_of_rows (by decide +kernel) 1 (some 5))
  obtain ⟨form, declares⟩ :=
    rendered_declarations (.parse read) rfl consistent undeclaring false ["#default"]
  refine ⟨read, consistent, form.trans ?_, declares⟩
  exact congrArg Except.ok (by decide +kernel)

/-- A document with an attribute that got the prefix `xmlns`, inside an element that binds a prefix
of its own. -/
def eclipsed : Document := ofForest
  (.node (.element ⟨⟨some "z", "r", some "urn:u"⟩, [], [⟨"z", "urn:u"⟩]⟩)
    (.node (.element ⟨⟨some "z", "a", some "urn:u"⟩,
        [⟨⟨some "xmlns", "z", some "urn:u"⟩, "urn:evil"⟩], [⟨"", "urn:d"⟩, ⟨"xmlns", "urn:u"⟩]⟩)
      .nil .nil) .nil)

/-- With such an attribute a start tag declares what was never bound: the element itself is in
another namespace by its written tag. -/
theorem rendered_declarations_eclipsed :
    parse ("<z:r xmlns:z='urn:u'>" ++
      "<z:a xmlns:xmlns='urn:u' z:xmlns='urn:d' z:z='urn:evil'/></z:r>") = .ok eclipsed ∧
    eclipsed.ConsistentBelow root ∧
    eclipsed.canonical 1 none false [] = .ok ("<z:r xmlns:z=\"urn:u\">" ++
      "<z:a xmlns:xmlns=\"urn:u\" xmlns:z=\"urn:evil\"></z:a></z:r>") ∧
    ¬ List.Forall₂ (fun path x => Opening.Declares path [] (eclipsed.scopeAt x.1) x.2)
      (openings [] (eclipsed.rendered 1 none false []))
      (writtenElements none (eclipsed.view [1])) := by
  refine ⟨parse_eq_ok (by decide +kernel), consistentBelow_of_rows (by decide +kernel) root,
    (canonical_eq_ok rfl rfl).trans (congrArg Except.ok (by decide +kernel)), fun declares => ?_⟩
  -- the second tag is the one of the inner element
  have inner := declares.get (i := 1) (by decide +kernel) (by decide +kernel)
  exact absurd (inner.sound.element (by decide +kernel)) (by decide +kernel)

end SamlSeal.Xml.Document
