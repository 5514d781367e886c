import SamlSeal.Proofs.Dependence
import SamlSeal.Proofs.Verdict

/-!
# Copies of trees

A tree can stand in two documents, at other positions and with something else around it.

* `Document.SameTrees`: what is at some nodes of two documents, and below them, is the same.  Whole
  documents are then written alike (`toXml_eq_of_sameTrees`),
* `mirrorsBelow_sameTree`: so it is at their children, and every question has the same answer,
* `canonical_congr_of_element`: two elements have the same canonical form if they differ in their
  declarations only, as long as the same bindings are in force,
* `SameSigned`, `SameSigned.verifySite_eq`: a signature is judged alike wherever the signed
  information and the rest of the signed element are copied to.
-/

namespace SamlSeal.Canonical

open Xml

/-! ### What is written of a copy -/

/-- A node that is not there need not be excluded. -/
theorem retain_of_not_mem {excluded : Option NodeId} {f : Forest (NodeId × Kind)}
    (absent : ∀ label ∈ f.labels, excluded ≠ some label.1) (comments : Bool) (place : Place) :
    retain excluded comments place f = retain none comments place f := by
  induction f generalizing place with
  | nil => rfl
  | node label inner next ihInner ihNext =>
    obtain ⟨id, kind⟩ := label
    obtain ⟨here, below⟩ := List.forall_mem_cons.1 absent
    have inside := ihInner fun label hl => below label (List.mem_append_left _ hl)
    have after := ihNext fun label hl => below label (List.mem_append_right _ hl)
    rw [Document.retain_node, Document.retain_node, if_neg here,
      if_neg (Option.some_ne_none _).symm]
    cases kind <;> simp only [inside, after]

/-- Start tags depend on what prefixes are bound to, not on how they came to be bound. -/
theorem render_congr {inclusive : List String} {scope scope' : Scope}
    (same : ∀ p, scope'.uri? p = scope.uri? p) (written : Scope) (f : Forest (Piece Element)) :
    render inclusive scope' written f = render inclusive scope written f := by
  induction f generalizing scope scope' written with
  | nil => rfl
  | node piece inner next ihInner ihNext =>
    cases piece with
    | element e =>
      have inside := Scope.uri?_declare_congr same e.declarations
      have tag : Opening.ofElement inclusive (scope'.declare e.declarations) written e =
          Opening.ofElement inclusive (scope.declare e.declarations) written e :=
        ofElement_congr rfl (.inl rfl) (fun p => Iff.rfl) (fun p _ => inside p) fun p => rfl
      simp only [render, tag, ihInner inside, ihNext same]
    | _ => simp only [render, ihNext same]

end SamlSeal.Canonical

namespace SamlSeal.Xml

/-- What is written of a tree does not depend on its positions. -/
theorem Forest.write_congr {f g : Forest (NodeId × Kind)} (h : f.map Prod.snd = g.map Prod.snd) :
    f.write = g.write := by
  induction f generalizing g with
  | nil =>
    cases g with
    | nil => rfl
    | node => cases h
  | node label inner next ihInner ihNext =>
    cases g with
    | nil => cases h
    | node label' inner' next' =>
      obtain ⟨id, kind⟩ := label
      obtain ⟨id', kind'⟩ := label'
      obtain ⟨rfl, below, after⟩ := Forest.node.inj h
      cases kind with
      | element e =>
        -- an element without content is closed at once
        cases inner with
        | nil =>
          cases inner' with
          | nil => simp only [Forest.write, ihNext after]
          | node => cases below
        | node =>
          cases inner' with
          | nil => cases below
          | node => rw [Forest.write, Forest.write, ihInner below, ihNext after] <;> nofun
      | _ => simp only [Forest.write, ihInner below, ihNext after]

namespace Document

open Canonical

variable {d d' : Document}

/-! ### The same trees -/

/-- What is at some nodes of two documents, and below them, is the same but for its positions. -/
def SameTrees (d d' : Document) (xs ys : List NodeId) : Prop :=
  ∃ f g, d.Shows xs f ∧ d'.Shows ys g ∧ f.map Prod.snd = g.map Prod.snd

/-- What is at two nodes, and below them, is the same but for its positions. -/
def SameTree (d d' : Document) (x y : NodeId) : Prop := SameTrees d d' [x] [y]

section SameTrees

variable {x y : NodeId} {xs ys : List NodeId}

theorem sameTrees_nil : SameTrees d d' [] [] := ⟨.nil, .nil, .nil, .nil, rfl⟩

theorem sameTrees_cons_iff : SameTrees d d' (x :: xs) (y :: ys) ↔
    (∃ k, d.kind? x = some k ∧ d'.kind? y = some k ∧
      SameTrees d d' (d.children x) (d'.children y)) ∧ SameTrees d d' xs ys := by
  constructor
  · rintro ⟨f, g, hf, hg, same⟩
    cases hf with
    | node hk hi hn =>
      cases hg with
      | node hk' hi' hn' =>
        obtain ⟨rfl, inner, next⟩ := Forest.node.inj same
        exact ⟨⟨_, hk, hk', _, _, hi, hi', inner⟩, _, _, hn, hn', next⟩
  · rintro ⟨⟨k, hk, hk', f, g, hf, hg, inner⟩, f', g', hf', hg', next⟩
    refine ⟨_, _, .node hk hf hf', .node hk' hg hg', ?_⟩
    rw [Forest.map, Forest.map, inner, next]

theorem sameTree_iff : SameTree d d' x y ↔ ∃ k, d.kind? x = some k ∧ d'.kind? y = some k ∧
    SameTrees d d' (d.children x) (d'.children y) := by
  rw [SameTree, sameTrees_cons_iff]
  exact and_iff_left sameTrees_nil

theorem sameTrees_iff_forall₂ : SameTrees d d' xs ys ↔ List.Forall₂ (SameTree d d') xs ys := by
  constructor
  · intro h
    induction xs generalizing ys with
    | nil =>
      obtain ⟨f, g, hf, hg, same⟩ := h
      cases hf
      cases hg with
      | nil => exact .nil
      | node => cases same
    | cons x xs ih =>
      cases ys with
      | nil =>
        obtain ⟨f, g, hf, hg, same⟩ := h
        cases hg
        cases hf
        cases same
      | cons y ys =>
        obtain ⟨here, rest⟩ := sameTrees_cons_iff.1 h
        exact .cons (sameTree_iff.2 here) (ih rest)
  · intro h
    induction h with
    | nil => exact sameTrees_nil
    | cons here _ ih => exact sameTrees_cons_iff.2 ⟨sameTree_iff.1 here, ih⟩

end SameTrees

/-- Documents with the same tree are written alike. -/
theorem toXml_eq_of_sameTrees (linked : d.Linked) (linked' : d'.Linked)
    (h : SameTrees d d' (d.children root) (d'.children root)) : d'.toXml = d.toXml := by
  obtain ⟨f, g, hf, hg, same⟩ := h
  rw [toXml, toXml, (shows_children linked root).unique hf, (shows_children linked' root).unique hg,
    Forest.write_congr same]

/-- What is below the same trees is the same. -/
theorem mirrorsBelow_sameTree : MirrorsBelow d d' (SameTree d d') where
  kind h := by
    obtain ⟨k, hk, hk', -⟩ := sameTree_iff.1 h
    exact ⟨k, k, hk, hk', .refl k⟩
  children h := by
    obtain ⟨-, -, -, below⟩ := sameTree_iff.1 h
    refine forall₂_filter (sameTrees_iff_forall₂.1 below) fun hxy => ?_
    obtain ⟨k, hk, hk', -⟩ := sameTree_iff.1 hxy
    rw [hk, hk']

theorem SameTree.element {x y : NodeId} (h : SameTree d d' x y) {e : Element}
    (he : d.element? x = some e) : d'.element? y = some e := by
  obtain ⟨k, hk, hk', -⟩ := sameTree_iff.1 h
  rw [element?, hk', ← hk, ← element?, he]

/-- The same bindings are in force at the roots of the same trees, if they are around them. -/
theorem SameTree.scope (linked : d.Linked) (linked' : d'.Linked) {p p' x y : NodeId}
    (h : SameTree d d' x y) (hx : x ∈ d.children p) (hy : y ∈ d'.children p')
    (around : ∀ q, (d'.scopeAt p').uri? q = (d.scopeAt p).uri? q) (q : String) :
    (d'.scopeAt y).uri? q = (d.scopeAt x).uri? q := by
  obtain ⟨k, hk, hk', -⟩ := sameTree_iff.1 h
  rw [scopeAt_eq linked, scopeAt_eq linked', scopeAround_of_parent (linked.mem_children_iff.1 hx),
    scopeAround_of_parent (linked'.mem_children_iff.1 hy), element?, element?, hk, hk']
  cases k with
  | element e => exact Scope.uri?_declare_congr around e.declarations q
  | _ => exact around q

/-! ### The same canonical forms -/

/-- What is shown at some nodes lies below them. -/
theorem exists_below_of_shows (linked : d.Linked) {ids : List NodeId} {f : Forest (NodeId × Kind)}
    (h : d.Shows ids f) {label : NodeId × Kind} (hl : label ∈ f.labels) :
    ∃ id ∈ ids, d.Below id label.1 := by
  induction h with
  | nil => cases hl
  | @node id kind ids inner next _ _ _ ihInner ihNext =>
    rcases List.mem_cons.1 hl with rfl | hl
    · exact ⟨id, List.mem_cons_self, .refl⟩
    rcases List.mem_append.1 hl with hl | hl
    · obtain ⟨c, hc, below⟩ := ihInner hl
      exact ⟨id, List.mem_cons_self, (Below.refl.child linked hc).trans below⟩
    · obtain ⟨c, hc, below⟩ := ihNext hl
      exact ⟨c, List.mem_cons_of_mem _ hc, below⟩

/-- Without one of its children, an element holds what its other children show. -/
theorem retain_children_without (linked : d.Linked) {p s : NodeId} (hs : s ∈ d.children p)
    {f : Forest (NodeId × Kind)} (hf : d.Shows (without (some s) (d.children p)) f)
    (comments : Bool) : retain (some s) comments .inside (d.view (d.children p)) =
      pieces comments .inside (f.map Prod.snd) := by
  rw [retain_without comments (shows_children linked p) hf, retain_of_not_mem, retain_eq_pieces]
  rintro label hl eq
  -- the child itself does not lie below another child
  obtain ⟨c, hc, below⟩ := exists_below_of_shows linked hf hl
  obtain ⟨mem, ne⟩ := mem_without.1 hc
  rw [← Option.some.inj eq] at below
  exact ne (congrArg some (below.eq_of_same_parent linked (linked.mem_children_iff.1 mem)
    (linked.mem_children_iff.1 hs)).symm)

section Forms

variable (linked : d.Linked) (linked' : d'.Linked) {x y : NodeId} {e e' : Element}
  (hx : d.element? x = some e) (hy : d'.element? y = some e') (name : e'.name = e.name)
  (attributes : e'.attributes = e.attributes)
  (scope : ∀ p, (d'.scopeAt y).uri? p = (d.scopeAt x).uri? p)

include linked linked' hx hy name attributes scope

/-- Elements with the same name and attributes, and with the same bindings in force, have the same
canonical form, if the same is kept of what is inside them. -/
theorem canonical_congr_of_element {excluded excluded' : Option NodeId} (kept : excluded ≠ some x)
    (kept' : excluded' ≠ some y) {comments : Bool}
    (content : retain excluded' comments .inside (d'.view (d'.children y)) =
      retain excluded comments .inside (d.view (d.children x))) (inclusive : List String) :
    d'.canonical y excluded' comments inclusive = d.canonical x excluded comments inclusive := by
  have hk := kind?_of_element? hx
  have hk' := kind?_of_element? hy
  have inside : d.place x = .inside := by rw [place, hk]
  have inside' : d'.place y = .inside := by rw [place, hk']
  have tag : Opening.ofElement (inclusivePrefixes inclusive) (d'.scopeAt y) [] e' =
      Opening.ofElement (inclusivePrefixes inclusive) (d.scopeAt x) [] e :=
    ofElement_congr name (.inl attributes.symm) (fun p => Iff.rfl) (fun p _ => scope p) fun p => rfl
  rw [canonical, canonical, hk, hk', Document.rendered, Document.rendered, retained, retained,
    inside, inside', view_singleton linked hk, view_singleton linked' hk', retain_node, retain_node,
    if_neg kept, if_neg kept']
  simp only [retain, render, ← scopeAt_of_element linked hx, ← scopeAt_of_element linked' hy, tag,
    content, render_congr scope]
  rfl

theorem canonical_eq_of_sameTrees (below : SameTrees d d' (d.children x) (d'.children y))
    (comments : Bool) (inclusive : List String) :
    d'.canonical y none comments inclusive = d.canonical x none comments inclusive := by
  obtain ⟨f, g, hf, hg, same⟩ := below
  refine canonical_congr_of_element linked linked' hx hy name attributes scope
    (Option.some_ne_none _).symm (Option.some_ne_none _).symm ?_ _
  rw [(shows_children linked x).unique hf, (shows_children linked' y).unique hg, retain_eq_pieces,
    retain_eq_pieces, same]

theorem canonical_eq_of_sameTrees_without {s s' : NodeId} (hs : s ∈ d.children x)
    (hs' : s' ∈ d'.children y) (others : SameTrees d d' (without (some s) (d.children x))
      (without (some s') (d'.children y))) (comments : Bool) (inclusive : List String) :
    d'.canonical y (some s') comments inclusive = d.canonical x (some s) comments inclusive := by
  obtain ⟨f, g, hf, hg, same⟩ := others
  refine canonical_congr_of_element linked linked' hx hy name attributes scope ?_ ?_ ?_ _
  · exact fun eq => Nat.ne_of_gt (linked.child_lt hs) (Option.some.inj eq)
  · exact fun eq => Nat.ne_of_gt (linked'.child_lt hs') (Option.some.inj eq)
  · rw [retain_children_without linked hs hf, retain_children_without linked' hs' hg, same]

end Forms

/-! ### Signatures that say the same -/

/-- Two signatures agree in what is trusted: their names and declarations, the signed information,
and the base64 text of the signature value.  Whatever else is inside them does not count. -/
structure SameSignature (d d' : Document) (s s' : NodeId) : Prop where
  tag : ∃ e e', d.element? s = some e ∧ d'.element? s' = some e' ∧ e'.name = e.name ∧
    e'.declarations = e.declarations
  signedInfo : Option.Rel (SameTree d d') (d.childElement? s Namespace.dsig ElementName.signedInfo)
    (d'.childElement? s' Namespace.dsig ElementName.signedInfo)
  value : (d'.childElement? s' Namespace.dsig ElementName.signatureValue).map d'.unwrapped =
    (d.childElement? s Namespace.dsig ElementName.signatureValue).map d.unwrapped

theorem SameTree.sameSignature {s s' : NodeId} (h : SameTree d d' s s')
    (hs : d.isElement s = true) : SameSignature d d' s s' where
  tag := by
    obtain ⟨e, he⟩ := isElement_iff.1 hs
    exact ⟨e, e, he, h.element he, rfl, rfl⟩
  signedInfo := mirrorsBelow_sameTree.childElement? h _ _
  value := by
    rcases rel_cases (mirrorsBelow_sameTree.childElement? h Namespace.dsig
      ElementName.signatureValue) with ⟨none, none'⟩ | ⟨v, v', hv, hv', same⟩
    · rw [none, none']
      rfl
    · rw [hv, hv', Option.map_some, Option.map_some, mirrorsBelow_sameTree.unwrapped_eq same]

/-- Two elements with a signature inside: they differ in their declarations only, as the same
bindings are in force, and have the same content but for the signatures, which agree. -/
structure SameSigned (d d' : Document) (p s p' s' : NodeId) : Prop where
  holder : ∃ e e', d.element? p = some e ∧ d'.element? p' = some e' ∧ e'.name = e.name ∧
    e'.attributes = e.attributes
  scope : ∀ q, (d'.scopeAt p').uri? q = (d.scopeAt p).uri? q
  child : s ∈ d.children p
  child' : s' ∈ d'.children p'
  others : SameTrees d d' (without (some s) (d.children p)) (without (some s') (d'.children p'))
  signature : SameSignature d d' s s'

namespace SameSigned

variable {p s p' s' : NodeId} (h : SameSigned d d' p s p' s')

include h

theorem holder_agree (linked : d.Linked) (linked' : d'.Linked) :
    Agree (fun q q' => q = p ∧ q' = p') (Site.holder d s) (Site.holder d' s') := by
  obtain ⟨e, e', he, he', -⟩ := h.holder
  rw [Site.holder, Site.holder, linked.mem_children_iff.1 h.child,
    linked'.mem_children_iff.1 h.child']
  dsimp only
  rw [if_pos (isElement_iff.2 ⟨e, he⟩), if_pos (isElement_iff.2 ⟨e', he'⟩)]
  exact .ok ⟨rfl, rfl⟩

/-- The same bindings are in force inside the signatures. -/
theorem scope_signature (linked : d.Linked) (linked' : d'.Linked) (q : String) :
    (d'.scopeAt s').uri? q = (d.scopeAt s).uri? q := by
  obtain ⟨e, e', he, he', -, declarations⟩ := h.signature.tag
  rw [scopeAt_of_element linked he, scopeAt_of_element linked' he', declarations,
    scopeAround_of_parent (linked.mem_children_iff.1 h.child),
    scopeAround_of_parent (linked'.mem_children_iff.1 h.child')]
  exact Scope.uri?_declare_congr h.scope _ q

theorem signedInfo (linked : d.Linked) (linked' : d'.Linked) :
    Option.Rel (fun i i' => SameTree d d' i i' ∧ ∀ comments,
        d'.canonical i' none comments [] = d.canonical i none comments [])
      (d.childElement? s Namespace.dsig ElementName.signedInfo)
      (d'.childElement? s' Namespace.dsig ElementName.signedInfo) := by
  rcases rel_cases h.signature.signedInfo with ⟨none, none'⟩ | ⟨i, i', hi, hi', same⟩
  · rw [none, none']
    exact .none
  rw [hi, hi']
  refine .some ⟨same, fun comments => ?_⟩
  obtain ⟨e, he⟩ := isElement_iff.1 (isElement_of_isNamed (List.find?_some hi))
  obtain ⟨-, -, -, below⟩ := sameTree_iff.1 same
  exact canonical_eq_of_sameTrees linked linked' he (same.element he) rfl rfl
    (same.scope linked linked' (List.mem_of_find?_eq_some hi) (List.mem_of_find?_eq_some hi')
      (h.scope_signature linked linked')) below comments []

/-- The signatures are judged alike. -/
theorem verifySite_eq (linked : d.Linked) (linked' : d'.Linked) (kind : SiteKind) (ctx : Context) :
    verifySite ctx d' kind s' = verifySite ctx d kind s := by
  have value : Option.Rel (fun v v' => d'.unwrapped v' = d.unwrapped v)
      (d.childElement? s Namespace.dsig ElementName.signatureValue)
      (d'.childElement? s' Namespace.dsig ElementName.signatureValue) := by
    have same := h.signature.value
    generalize d.childElement? s _ _ = v, d'.childElement? s' _ _ = v' at same
    cases v <;> cases v' <;> simp_all
  refine verifySite_congr mirrorsBelow_sameTree (Site.locate_agree
    (h.holder_agree linked linked') (requiredChild_agree (h.signedInfo linked linked'))
    (fun hi => mirrorsBelow_sameTree.onlyReference hi.1) (requiredChild_agree value) ?_) ctx
  rintro q q' i i' r r' v v' ⟨rfl, rfl⟩ ⟨hi, infoForm⟩ hr hv
  obtain ⟨e, e', he, he', name, attributes⟩ := h.holder
  refine ⟨rfl, ?_, ?_, hi, infoForm, hr, hv⟩
  · rw [attribute?, attribute?, he, he', Option.bind_some, Option.bind_some, attributes]
  · exact canonical_eq_of_sameTrees_without linked linked' he he' name attributes h.scope h.child
      h.child' h.others

end SameSigned

end Document

end SamlSeal.Xml
