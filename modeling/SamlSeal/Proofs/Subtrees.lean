import SamlSeal.Proofs.Copies
import SamlSeal.Proofs.Survival

/-!
# Elements written by themselves

`Document.write` writes an element with the declarations that it holds, and an element holds only
what changes the bindings around it.  What is bound further out is not written.

* `Document.SelfContained`: the declarations from an element downwards bind all names that are used
  there,
* `Document.parse_write`: such an element can be written by itself, and is read again as the same
  tree,
* `Document.write_unbound`: others cannot.
-/

namespace SamlSeal.Xml

open Canonical

/-! ### Trees up to declarations -/

/-- The names and attributes of an element.  No prefix is the empty one, and so is no namespace. -/
def Element.gist (e : Element) : Element where
  name := ⟨some (elementPfx e), e.name.localName, some (e.name.uri.getD "")⟩
  attributes := e.attributes
  declarations := []

/-- A tree by its names, attributes and texts, without empty texts. -/
def Forest.gist : Forest Kind → Forest Kind
  | .nil => .nil
  | .node kind inner next =>
    match kind with
    | .element e => .node (.element e.gist) inner.gist next.gist
    | .text s => if s = "" then next.gist else .node (.text s) inner.gist next.gist
    | kind => .node kind inner.gist next.gist

/-- An element is read as one with the same names, if they are bound. -/
theorem Element.gist_reread {e : Element} (sound : e.Sound) {ns : Namespaces}
    (single : ∀ p, Scope.Single (ns.extend e.declarations) p)
    (consistent : e.Consistent (ns.extend e.declarations).toScope) :
    (e.reread ns).gist = e.gist := by
  have bound := Scope.uri?_toScope (single (elementPfx e))
  have uri : ((ns.extend e.declarations).find? (elementPfx e)).getD "" = e.name.uri.getD "" := by
    by_cases empty : elementPfx e = ""
    · have default := consistent.unprefixed empty
      rw [empty] at bound ⊢
      rw [← default, bound]
      -- the empty namespace is no binding
      cases (ns.extend e.declarations).find? "" with
      | none => rfl
      | some u => by_cases hu : u = "" <;> simp [hu, Option.filter]
    · obtain ⟨u, hu, found⟩ := consistent.prefixed empty sound.pfx.1
      rw [bound] at found
      rw [(Option.filter_eq_some_iff.1 found).1, hu]
  rw [Element.gist, Element.gist, Element.elementPfx_reread]
  simp only [Element.reread, uri]

/-- A tree whose names are bound is read as the same tree, but for its declarations. -/
theorem Bound.gist_reread {ns : Namespaces} {f : Forest Kind} (h : Bound ns f)
    (single : ∀ p, Scope.Single ns p) (tidy : f.Tidy) (labels : ∀ k ∈ f.labels, k.Writable) :
    (f.reread ns).gist = f.gist := by
  induction h with
  | nil => rfl
  | element consistent _ _ ihInner ihNext =>
    obtain ⟨-, -, tinner, tnext⟩ := tidy
    obtain ⟨⟨sound, fit, -⟩, labels⟩ := List.forall_mem_cons.1 labels
    obtain ⟨inside, later⟩ := List.forall_mem_append.1 labels
    have single' (p : String) :=
      Namespaces.single_extend (single p) (Scope.single_of_nodup fit.single p)
    simp only [Forest.reread, Forest.gist, Element.gist_reread sound single' consistent,
      ihInner single' tinner inside, ihNext single tnext later]
  | @leaf ns kind inner next hk _ ih =>
    obtain ⟨leaf, -, -, tnext⟩ := tidy
    obtain ⟨here, labels⟩ := List.forall_mem_cons.1 labels
    have rest := ih single tnext (List.forall_mem_append.1 labels).2
    cases kind with
    | element => cases hk
    | document => exact here.sound.elim
    | text content =>
      obtain rfl := leaf rfl
      by_cases empty : content = ""
      · simp only [Forest.reread, Forest.gist, if_pos empty, rest]
      · simp only [Forest.reread, Forest.gist, if_neg empty, rest]
    | comment content =>
      obtain rfl := leaf rfl
      simp only [Forest.reread, Forest.gist, rest]
    | instruction target data =>
      obtain rfl := leaf rfl
      simp only [Forest.reread, Forest.gist, rest]

/-- The names of a tree are bound if they mean what they were resolved to in the scopes that walking
down the tree gives. -/
theorem Bound.of_withScope {f : Forest Kind} {ns : Namespaces} {scope : Scope}
    (same : ∀ p, ns.toScope.uri? p = scope.uri? p) (single : ∀ p, Scope.Single ns p)
    (labels : ∀ k ∈ f.labels, k.Writable)
    (consistent : ∀ x ∈ (f.withScope scope).labels, ∀ e ∈ x.1.element?,
      e.Consistent (x.2.declare e.declarations)) : Bound ns f := by
  induction f generalizing ns scope with
  | nil => exact .nil
  | node kind inner next ihInner ihNext =>
    obtain ⟨⟨-, fit, -⟩, labels⟩ := List.forall_mem_cons.1 labels
    obtain ⟨inside, later⟩ := List.forall_mem_append.1 labels
    obtain ⟨here, consistent⟩ := List.forall_mem_cons.1 consistent
    obtain ⟨below, after⟩ := List.forall_mem_append.1 consistent
    have rest := ihNext same single later after
    cases kind with
    | element e =>
      have own := Scope.single_of_nodup fit.single
      have scope' (p : String) : (ns.extend e.declarations).toScope.uri? p =
          (scope.declare e.declarations).uri? p := by
        rw [Namespaces.uri?_toScope_extend (single p) (own p)]
        exact Scope.uri?_declare_congr same e.declarations p
      exact .element ((here e rfl).congr scope')
        (ihInner scope' (fun p => Namespaces.single_extend (single p) (own p)) inside below) rest
    | _ => exact .leaf rfl rest

namespace Document

variable {d : Document}

/-- All names at an element and below it mean what they were resolved to, when only the declarations
from the element downwards count. -/
def SelfContained (d : Document) (a : NodeId) : Prop :=
  ∀ x ∈ (((d.view [a]).map Prod.snd).withScope []).labels, ∀ e ∈ x.1.element?,
    e.Consistent (x.2.declare e.declarations)

/-- Nothing at a node or below it would be written as something else. -/
def PlainBelow (d : Document) (a : NodeId) : Prop :=
  ∀ x, d.Below a x → ∀ k, d.kind? x = some k → k.Plain

theorem writable_below {text : String} (h : parse text = .ok d) {a : NodeId} {e : Element}
    (he : d.element? a = some e) (plain : d.PlainBelow a) :
    ∀ x ∈ (d.view [a]).labels, x.2.Writable := by
  have linked := (Reachable.parse h).linked
  have shown := shows_singleton linked (kind?_of_element? he)
  rintro ⟨x, k⟩ hx
  obtain ⟨b, hb, below⟩ := exists_below_of_shows linked shown hx
  rw [List.mem_singleton.1 hb] at below
  have hk := kind?_of_shows shown hx
  have ne : x ≠ root := by
    have le := below.le linked
    have pos := Nat.pos_of_ne_zero (linked.ne_root he)
    exact Nat.ne_of_gt (Nat.lt_of_lt_of_le pos le)
  exact ⟨Sound.parse h x k ne hk, Fit.parse h x k ne hk, plain x below k hk⟩

/-- An element that binds its own names can be written by itself.  What is written is read as a
document whose document element has the same tree. -/
theorem parse_write {text : String} (h : parse text = .ok d) {a : NodeId} {e : Element}
    (he : d.element? a = some e) (plain : d.PlainBelow a) (contained : d.SelfContained a) :
    ∃ d' r, parse (d.write a) = .ok d' ∧ d'.rootElement? = some r ∧
      ((d'.view [r]).map Prod.snd).gist = ((d.view [a]).map Prod.snd).gist := by
  have linked := (Reachable.parse h).linked
  have hk := kind?_of_element? he
  have shown := shows_singleton linked hk
  have labels := writable_below h he plain
  have kinds : ∀ k ∈ ((d.view [a]).map Prod.snd).labels, k.Writable := by
    rw [Forest.labels_map]
    exact List.forall_mem_map.2 labels
  have tidy := (Tidy.parse h).view shown (List.isChain_singleton _)
  have single (p : String) : Scope.Single [] p := by simp [Scope.Single]
  have bound : Bound [] ((d.view [a]).map Prod.snd) :=
    .of_withScope (fun _ => rfl) single kinds contained
  have one := view_singleton linked hk
  have texts : ∀ k ∈ ((d.view [a]).map Prod.snd).roots, k.isText = false := by
    intro k hk
    rw [one] at hk
    rw [List.mem_singleton.1 hk]
    rfl
  obtain ⟨m, hm⟩ := Forest.spells .nil bound tidy labels (fun _ : true = true => texts) []
  have read := hm.read? (.inl rfl) (by rw [one]; rfl)
  have parsed := hm.parse (bound.stands .nil single kinds) read
  rw [List.append_nil] at parsed
  have same := bound.gist_reread single tidy kinds
  rw [one] at same parsed
  obtain ⟨top, only⟩ := rootElement?_ofForest (e.reread [])
    (((d.view (d.children a)).map Prod.snd).reread (Namespaces.extend [] e.declarations))
  refine ⟨_, 1, ?_, top, ?_⟩
  · rw [write, one]
    exact parsed
  · rw [← only, view_ofForest, Forest.map_snd_number, one]
    exact same

/-- An element whose prefix is bound around it, and one whose default namespace is. -/
def inheriting : Document := ofForest
  (.node (.element ⟨⟨some "p", "r", some "urn:p"⟩, [], [⟨"", "urn:d"⟩, ⟨"p", "urn:p"⟩]⟩)
    (.node (.element ⟨⟨some "p", "a", some "urn:p"⟩, [], []⟩) .nil
      (.node (.element ⟨⟨none, "b", some "urn:d"⟩, [], []⟩) .nil .nil)) .nil)

/-- Bindings that are made around an element are not written with it: a prefix is unbound then, and
an element in a default namespace is read as one without namespace. -/
theorem write_unbound :
    parse "<p:r xmlns='urn:d' xmlns:p='urn:p'><p:a/><b/></p:r>" = .ok inheriting ∧
    inheriting.write 2 = String.ofList "<p:a/>".toList ∧
    parse (inheriting.write 2) = .error .malformedXml ∧
    inheriting.write 3 = String.ofList "<b/>".toList ∧
    parse (inheriting.write 3) =
      .ok (ofForest (.node (.element ⟨⟨none, "b", none⟩, [], []⟩) .nil .nil)) := by
  have written : inheriting.write 2 = String.ofList "<p:a/>".toList :=
    congrArg String.ofList (by decide +kernel)
  have written' : inheriting.write 3 = String.ofList "<b/>".toList :=
    congrArg String.ofList (by decide +kernel)
  have refused : (Markup.read? "<p:a/>".toList).bind
      (fun m => (m.resolve? [] []).map ofForest) = none := by decide +kernel
  refine ⟨parse_eq_ok (by decide +kernel), written, ?_, written', ?_⟩
  · rw [written, parse, parse?, String.toList_ofList, refused]
  · rw [written', String.ofList_toList]
    exact parse_eq_ok (by decide +kernel)

/-- An element that takes the default namespace around it away and binds a prefix. -/
def enclosed : Document := ofForest
  (.node (.element ⟨⟨none, "r", some "urn:d"⟩, [], [⟨"", "urn:d"⟩]⟩)
    (.node (.element ⟨⟨some "p", "a", some "urn:p"⟩, [⟨⟨some "p", "k", some "urn:p"⟩, "v"⟩],
        [⟨"p", "urn:p"⟩, ⟨"", ""⟩]⟩)
      (.node (.element ⟨⟨none, "b", some ""⟩, [], []⟩) .nil (.node (.text "t") .nil .nil))
      .nil) .nil)

theorem parse_write_enclosed :
    parse "<r xmlns='urn:d'><p:a xmlns='' xmlns:p='urn:p' p:k='v'><b/>t</p:a></r>" = .ok enclosed ∧
    enclosed.SelfContained 2 ∧ ∃ d' r, parse (enclosed.write 2) = .ok d' ∧
      d'.rootElement? = some r ∧
      ((d'.view [r]).map Prod.snd).gist = ((enclosed.view [2]).map Prod.snd).gist := by
  have read : parse "<r xmlns='urn:d'><p:a xmlns='' xmlns:p='urn:p' p:k='v'><b/>t</p:a></r>" =
      .ok enclosed := parse_eq_ok (by decide +kernel)
  have contained : enclosed.SelfContained 2 := by
    unfold SelfContained
    decide +kernel
  have plain : enclosed.Plain := plain_of_rows (by decide +kernel)
  exact ⟨read, contained, parse_write read (a := 2) rfl (fun x _ => plain x) contained⟩

end Document

end SamlSeal.Xml
