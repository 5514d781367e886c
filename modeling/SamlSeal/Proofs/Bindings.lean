import SamlSeal.Proofs.Numbering
import SamlSeal.Proofs.Scanning
import SamlSeal.Proofs.Scope
import SamlSeal.Proofs.Signing

/-!
# Bindings in force

An element does not hold the bindings in force inside it, but the declarations that tell them from
those around it, and the bindings are put together again from these.  What a text says is simpler:
of the start tags around a place, the nearest one that declares a prefix counts (`Tag.inForce`).

* `Enclosed.step`: what reading a start tag keeps between the two,
* `Markup.readsAs_resolve?`: both say the same at every node of a document that was read, and the
  names of the elements mean what they were resolved to,
* `Document.Edited`: documents that were changed afterwards, which keeps all of this.

Two kinds of start tags are left aside, by `Tag.Orderly`: those that bind a prefix other than the
empty one to the empty namespace, and those that declare the default namespace twice in two ways.
-/

namespace SamlSeal.Xml

open Canonical

/-! ### What start tags declare -/

namespace Tag

/-- What a name and a value in attribute position declare.  With the local part `xmlns` and another
prefix, or none, that is the default namespace; the prefix `xml` is not declared. -/
def declared? (a : WrittenName × String) : Option Declaration :=
  if a.1.pfx = "xmlns" then if a.1.localName = "xml" then none else some ⟨a.1.localName, a.2⟩
  else if a.1.localName = "xmlns" then some ⟨"", a.2⟩
  else none

/-- The declarations in a start tag, in order. -/
def declared (t : Tag) : List Declaration := t.attributes.filterMap declared?

/-- The namespace that the nearest declaration of a prefix gives, in some start tags from the
innermost to the outermost. -/
def nearest? (path : List Tag) (p : String) : Option String :=
  path.findSome? fun t => Scope.uri? t.declared p

theorem nearest?_cons (t : Tag) (path : List Tag) (p : String) :
    nearest? (t :: path) p = (Scope.uri? t.declared p).or (nearest? path p) := by
  rw [nearest?, List.findSome?_cons]
  cases Scope.uri? t.declared p <;> rfl

/-- The namespace that a prefix is bound to inside some start tags: the nearest declaration counts,
and the empty namespace is no binding. -/
def inForce (path : List Tag) (p : String) : Option String := (nearest? path p).filter (· != "")

/-- A start tag does not bind a prefix in two ways, nor to the empty namespace; only the default
namespace can be taken away. -/
structure Orderly (t : Tag) (p : String) : Prop where
  single : Scope.Single t.declared p
  nonempty : p ≠ "" → Scope.uri? t.declared p ≠ some ""

/-- A start tag is orderly if it declares no prefix twice, and none as empty. -/
theorem orderly_of_nodup {t : Tag} (nodup : (t.declared.map (·.pfx)).Nodup)
    (nonempty : ∀ d ∈ t.declared, d.pfx ≠ "" → d.uri ≠ "") (p : String) : t.Orderly p where
  single := Scope.single_of_nodup nodup p
  nonempty ne found := nonempty _ (Scope.mem_of_uri? found) ne rfl

/-- A declaration that is accepted is the one that is written. -/
theorem declared?_of_declaration? {a : WrittenName × String} {made : Option Declaration}
    (declares : declares a.1 = true) (h : declaration? a.1 a.2 = some made) :
    declared? a = made := by
  obtain ⟨-, h⟩ := Option.ite_none_left_eq_some.1 h
  unfold declared?
  split at h
  · next xmlns =>
    rw [if_pos xmlns]
    split at h
    · next xml =>
      obtain ⟨-, h⟩ := Option.ite_none_right_eq_some.1 h
      rw [if_pos xml, Option.some.inj h]
    · next xml =>
      obtain ⟨-, h⟩ := Option.ite_none_left_eq_some.1 h
      rw [if_neg xml, Option.some.inj h]
  · next xmlns =>
    have default : a.1.localName = "xmlns" := by
      simpa [Tag.declares, xmlns] using declares
    obtain ⟨-, h⟩ := Option.ite_none_left_eq_some.1 h
    rw [if_neg xmlns, if_pos default, Option.some.inj h]

theorem declared?_eq_none {a : WrittenName × String} (h : declares a.1 = false) :
    declared? a = none := by
  obtain ⟨notXmlns, notDefault⟩ : a.1.pfx ≠ "xmlns" ∧ a.1.localName ≠ "xmlns" := by
    simpa [declares] using h
  rw [declared?, if_neg notXmlns, if_neg notDefault]

theorem filterMap_declared? {as : List (WrittenName × String)} {made : List (Option Declaration)}
    (h : (as.filter fun a => declares a.1).mapM (fun a => declaration? a.1 a.2) = some made) :
    as.filterMap declared? = made.filterMap id := by
  induction as generalizing made with
  | nil =>
    obtain rfl := Option.some.inj h
    rfl
  | cons a as ih =>
    cases declares : declares a.1 with
    | false =>
      rw [List.filter_cons, declares] at h
      rw [List.filterMap_cons_none (declared?_eq_none declares), ih h]
    | true =>
      rw [List.filter_cons, declares, if_pos rfl, List.mapM_cons] at h
      obtain ⟨found, hfound, h⟩ := Option.bind_eq_some_iff.1 h
      obtain ⟨rest, hrest, h⟩ := Option.bind_eq_some_iff.1 h
      obtain rfl := Option.some.inj h
      rw [List.filterMap_cons, List.filterMap_cons, declared?_of_declaration? declares hfound,
        ih hrest]
      rfl

/-- The declarations of an accepted start tag are those that stand in it. -/
theorem declarations?_eq_declared {t : Tag} {own : Namespaces}
    (h : declarations? t.attributes = some own) : own = t.declared := by
  obtain ⟨made, hmade, h⟩ := Option.bind_eq_some_iff.1 h
  obtain ⟨-, h⟩ := Option.ite_none_right_eq_some.1 h
  obtain rfl := Option.some.inj h
  exact (filterMap_declared? hmade).symm

end Tag

/-! ### Start tags inside each other -/

/-- Bindings as reading has them, and bindings put together from changes, are those that the start
tags around a place make, as far as the tags are orderly. -/
structure Enclosed (path : List Tag) (ns : Namespaces) (s : Scope) : Prop where
  nearest : ∀ p, ns.find? p = Tag.nearest? path p
  single : ∀ p, (∀ t ∈ path, t.Orderly p) → Scope.Single ns p
  scope : ∀ p, (∀ t ∈ path, t.Orderly p) → s.uri? p = ns.toScope.uri? p

namespace Enclosed

variable {path : List Tag} {ns own : Namespaces} {s : Scope} {p : String}

theorem nil : Enclosed [] [] [] := ⟨fun _ => rfl, by simp [Scope.Single], fun _ _ => rfl⟩

theorem toScope (h : Enclosed path ns s) (orderly : ∀ t ∈ path, t.Orderly p) :
    ns.toScope.uri? p = Tag.inForce path p := by
  rw [Scope.uri?_toScope (h.single p orderly), h.nearest]
  rfl

theorem uri? (h : Enclosed path ns s) (orderly : ∀ t ∈ path, t.Orderly p) :
    s.uri? p = Tag.inForce path p :=
  (h.scope p orderly).trans (h.toScope orderly)

/-- A prefix other than the empty one is bound to the empty namespace by no orderly tag. -/
theorem find?_ne_empty (h : Enclosed path ns s) (ne : p ≠ "")
    (orderly : ∀ t ∈ path, t.Orderly p) : ns.find? p ≠ some "" := by
  rw [h.nearest, Tag.nearest?]
  intro found
  obtain ⟨t, ht, eq⟩ := List.exists_of_findSome?_eq_some found
  exact (orderly t ht).nonempty ne eq

/-- Reading one more start tag. -/
theorem step (h : Enclosed path ns s) {tag : Tag}
    (declared : Tag.declarations? tag.attributes = some own) :
    Enclosed (tag :: path) (ns.extend own)
      (s.declare (ns.toScope.changes (ns.extend own).toScope)) := by
  obtain rfl := Tag.declarations?_eq_declared declared
  have found : ∀ p, (ns.extend tag.declared).find? p = Tag.nearest? (tag :: path) p := by
    intro p
    rw [Namespaces.find?_extend, h.nearest, Tag.nearest?_cons]
    rfl
  have single : ∀ p, (∀ t ∈ tag :: path, t.Orderly p) →
      Scope.Single (ns.extend tag.declared) p := by
    intro p orderly
    obtain ⟨here, around⟩ := List.forall_mem_cons.1 orderly
    exact Namespaces.single_extend (h.single p around) here.single
  refine ⟨found, single, fun p orderly => ?_⟩
  obtain ⟨here, around⟩ := List.forall_mem_cons.1 orderly
  refine Scope.uri?_declare_changes (.toScope _) (h.scope p around) fun none => ?_
  by_cases empty : p = ""
  · exact .inl empty
  · -- the prefix is not bound inside, hence not declared by this tag nor by one around it
    refine .inr ?_
    rw [Scope.uri?_toScope (single p orderly), found, Tag.nearest?_cons] at none
    rw [h.toScope around, Tag.inForce]
    cases own : Scope.uri? tag.declared p with
    | none => rwa [own, Option.none_or] at none
    | some uri =>
      have ne : uri ≠ "" := fun eq => here.nonempty empty (own.trans (congrArg some eq))
      simp [own, ne] at none

end Enclosed

/-! ### Names and the bindings that they are resolved in -/

theorem forall₂_zip {α β γ : Type} {R : α → β → Prop} {S : α → γ → Prop} {as : List α}
    {bs : List β} {cs : List γ} (hb : List.Forall₂ R as bs) (hc : List.Forall₂ S as cs) :
    List.Forall₂ (fun a x => R a x.1 ∧ S a x.2) as (List.zip bs cs) := by
  induction hb generalizing cs with
  | nil => exact .nil
  | cons hr _ ih =>
    cases hc with
    | cons hs hc => exact .cons ⟨hr, hs⟩ (ih hc)

/-- An attribute is what a name and a value in a start tag stand for.  The prefix is the written
one, or one that is looked up because it is not known which name stands at its place. -/
structure Attribute.Resolves (ns : Namespaces) (x : WrittenName × String) (a : Attribute) : Prop where
  uri : attributeUri? ns x.1 = some a.name.uri
  localName : a.name.localName = x.1.localName
  value : a.value = x.2
  pfx : ∃ place, a.name.pfx = Xml.attributePfx ns.toScope place a.name.uri ∧
    ∀ name ∈ place, (writtenPfx? name).getD "" = x.1.pfx

/-- Every attribute of a start tag is resolved. -/
theorem resolves_of_resolveAttributes? {ns : Namespaces} {words : List (List Char)}
    {as : List (WrittenName × String)} {resolved : List Attribute}
    (all : List.Forall₂ (fun word a => IsWordOf word a.1) words as)
    (h : resolveAttributes? ns ns.toScope
      ((words.filter (!StartTag.isDeclaration ·)).map String.ofList)
      (as.filter (!Tag.declares ·.1)) = some resolved) :
    List.Forall₂ (Attribute.Resolves ns) (as.filter (!Tag.declares ·.1)) resolved := by
  obtain ⟨uris, huris, h⟩ := Option.bind_eq_some_iff.1 h
  obtain ⟨-, h⟩ := Option.ite_none_right_eq_some.1 h
  obtain rfl := Option.some.inj h
  have places : List.Forall₂
      (fun (x : WrittenName × String) place => ∀ name ∈ place, (writtenPfx? name).getD "" = x.1.pfx)
      (as.filter (!Tag.declares ·.1))
      (if ((words.filter (!StartTag.isDeclaration ·)).map String.ofList).length =
          (as.filter (!Tag.declares ·.1)).length then
        ((words.filter (!StartTag.isDeclaration ·)).map String.ofList).map some
      else (as.filter (!Tag.declares ·.1)).map fun _ => none) := by
    split
    · next same =>
      rw [List.length_map] at same
      rw [List.forall₂_map_right_iff, List.forall₂_map_right_iff]
      refine (words_of_length_eq all same).flip.imp fun a word hw name eq => ?_
      obtain rfl := Option.some.inj eq
      exact IsWordOf.writtenPfx? hw
    · rw [List.forall₂_map_right_iff, List.forall₂_same]
      simp
  rw [List.forall₂_map_right_iff]
  refine (forall₂_zip (List.forall₂_same.2 fun x _ => rfl)
    (forall₂_zip (forall₂_of_mapM huris) places)).imp ?_
  rintro x ⟨x', uri, place⟩ ⟨rfl, huri, hplace⟩
  exact ⟨huri, rfl, rfl, place, rfl, hplace⟩

section Resolved

variable {ns : Namespaces} (single : ∀ p, Scope.Single ns p)
  (nonempty : ∀ p, p ≠ "" → ns.find? p ≠ some "")

include single nonempty

theorem uri?_of_find? {p uri : String} (ne : p ≠ "") (found : ns.find? p = some uri) :
    ns.toScope.uri? p = some uri := by
  have nonempty : uri ≠ "" := fun eq => nonempty p ne (found.trans (congrArg some eq))
  rw [Scope.uri?_toScope (single p), found, Option.filter_some, if_pos (by simpa using nonempty)]

theorem Attribute.Resolves.bound {x : WrittenName × String} {a : Attribute}
    (h : a.Resolves ns x) : a.name.uri = none ∨ a.name.uri = some Namespace.xml ∨
      ∃ p uri, a.name.pfx = some p ∧ p ≠ "" ∧ a.name.uri = some uri ∧
        ns.toScope.uri? p = some uri := by
  obtain ⟨huri, -, -, place, hpfx, written⟩ := h
  rw [attributeUri?] at huri
  split at huri
  · exact .inl (Option.some.inj huri).symm
  next ne =>
  split at huri
  · exact .inr (.inl (Option.some.inj huri).symm)
  next notXml =>
  obtain ⟨uri, found, eq⟩ := Option.map_eq_some_iff.1 huri
  rw [← eq] at hpfx ⊢
  by_cases xml : uri = Namespace.xml
  · exact .inr (.inl (by rw [xml]))
  have bound := uri?_of_find? single nonempty ne found
  refine .inr (.inr ?_)
  rw [Xml.attributePfx, if_neg xml] at hpfx
  cases known : place.bind writtenPfx? with
  | some p =>
    -- the name at the place of the attribute has a prefix, which is that of the attribute
    obtain ⟨name, hname, hp⟩ := Option.bind_eq_some_iff.1 known
    have eq := written name hname
    rw [hp, Option.getD_some] at eq
    rw [known, Option.some_or, eq] at hpfx
    exact ⟨x.1.pfx, uri, hpfx, ne, rfl, bound⟩
  | none =>
    obtain ⟨q, hq, hne, hbound⟩ := Scope.pfxOf?_of_uri? (.toScope ns) ne bound
    rw [known, Option.none_or, hq] at hpfx
    exact ⟨q, uri, hpfx, hne, rfl, hbound⟩

/-- The names of an element mean what they were resolved to. -/
theorem consistent_of_resolves {name : WrittenName} {e : Element} (pfx : elementPfx e = name.pfx)
    (uri : elementUri? ns name = some e.name.uri) {as : List (WrittenName × String)}
    (attributes : List.Forall₂ (Attribute.Resolves ns) as e.attributes) :
    e.Consistent ns.toScope := by
  obtain ⟨-, uri⟩ := Option.ite_none_left_eq_some.1 uri
  refine ⟨fun empty => ?_, fun ne _ => ?_, fun a ha => ?_⟩
  · rw [← pfx, empty] at uri
    rw [Scope.uri?_toScope (single "")]
    split at uri
    · next u found =>
      rw [found, ← Option.some.inj uri, Option.filter_some, Option.getD_some]
      split
      · rfl
      · next h => simpa using (by simpa using h : u = "").symm
    · next found =>
      rw [found, ← Option.some.inj ((if_pos rfl).symm.trans uri)]
      rfl
  · rw [pfx] at ne ⊢
    split at uri
    · next u found =>
      exact ⟨u, (Option.some.inj uri).symm, uri?_of_find? single nonempty ne found⟩
    · exact absurd (Option.ite_none_right_eq_some.1 uri).1 ne
  · obtain ⟨x, -, resolves⟩ := exists_of_forall₂ attributes ha
    exact resolves.bound single nonempty

end Resolved

/-! ### Nodes and the start tags around them -/

/-- The start tags around each node, from the innermost to the outermost, in the order of the nodes.
An element stands inside its own start tag. -/
def Markup.paths (path : List Tag) : Markup → List (List Tag)
  | .nil => []
  | .node (.element _ tag) inner next =>
    (tag :: path) :: (paths (tag :: path) inner ++ paths path next)
  | .node _ _ next => path :: paths path next

/-- An element has the name that stands in its start tag, the bindings in force there are those that
the start tags around it make, and its names mean in them what they were resolved to. -/
structure Element.Reads (e : Element) (s : Scope) (path : List Tag) : Prop where
  name : ∃ tag ∈ path.head?, elementPfx e = tag.name.pfx ∧ e.name.localName = tag.name.localName
  scope : ∀ p, (∀ t ∈ path, t.Orderly p) → s.uri? p = Tag.inForce path p
  consistent : (∀ t ∈ path, ∀ p, t.Orderly p) → e.Consistent s

/-- Nothing of this changes with the values of attributes, nor with attributes without a
namespace. -/
theorem Element.Reads.keeps {e e' : Element} {s : Scope} {path : List Tag} (h : e.Reads s path)
    (name : e'.name = e.name)
    (attributes : ∀ a ∈ e'.attributes, a.name.uri = none ∨ ∃ b ∈ e.attributes, a.name = b.name) :
    e'.Reads s path := by
  have pfx : elementPfx e' = elementPfx e := by rw [elementPfx, name, elementPfx]
  exact ⟨by rw [pfx, name]; exact h.name, h.scope,
    fun orderly => (h.consistent orderly).keeps name attributes⟩

/-- What is said of elements, for any node and the bindings around it. -/
def Kind.Reads (path : List Tag) (node : Kind × Scope) : Prop :=
  ∀ e, node.1 = .element e → e.Reads (node.2.declare e.declarations) path

/-- Every element that reading makes reads as it is written. -/
theorem Markup.Resolved.reads {m : Markup} {ns : Namespaces} {outer : Scope} {f : Forest Kind}
    (h : Resolved ns outer m f) (hm : m.All Item.Scanned) (toScope : outer = ns.toScope)
    {path : List Tag} {s : Scope} (enclosed : Enclosed path ns s) :
    List.Forall₂ Kind.Reads (m.paths path) (f.withScope s).labels := by
  induction h generalizing path s with
  | nil => exact .nil
  | leaf hk _ ih =>
    obtain ⟨-, -, next⟩ := all_node.1 hm
    have rest := ih next toScope enclosed
    cases hk <;> exact .cons (fun e he => nomatch he) rest
  | element declared named scanned resolved _ _ ihInner ihNext =>
    obtain ⟨⟨word, words, isWord, areWords, scan⟩, inner, next⟩ := all_node.1 hm
    obtain rfl := Option.some.inj (scan.symm.trans scanned)
    subst toScope
    have inside := enclosed.step declared
    refine .cons ?_ (List.rel_append (ihInner inner rfl inside) (ihNext next rfl enclosed))
    intro e he
    obtain rfl := Kind.element.inj he
    have pfx := isWord.writtenPfx?
    refine ⟨⟨_, rfl, pfx, rfl⟩, fun p orderly => inside.uri? orderly, fun orderly => ?_⟩
    refine Element.Consistent.congr ?_ fun p => inside.scope p fun t ht => orderly t ht p
    exact consistent_of_resolves (fun p => inside.single p fun t ht => orderly t ht p)
      (fun p ne => inside.find?_ne_empty ne fun t ht => orderly t ht p) pfx named
      (resolves_of_resolveAttributes? areWords resolved)

namespace Document

variable {d d' : Document}

/-- Every element of a document that was read reads as it is written. -/
theorem reads_of_parse {text : String} (h : parse text = .ok d) :
    ∃ m, Markup.read? text.toList = some m ∧ ∀ x e, d.element? x = some e →
      ∃ path, (m.paths [])[x - 1]? = some path ∧ e.Reads (d.scopeAt x) path := by
  obtain ⟨m, f, hm, hf, rfl⟩ := parse_cases h
  refine ⟨m, hm, fun x e he => ?_⟩
  have reads := hf.reads (Markup.all_read? Token.Maker.scanned hm) rfl .nil
  obtain ⟨i, rfl⟩ := Nat.exists_eq_succ_of_ne_zero ((Linked.ofForest f).ne_root he)
  have label := getElem?_withScope f i
  rw [kind?_of_element? he] at label
  obtain ⟨lt, eq⟩ := List.getElem?_eq_some_iff.1 label
  have lt' : i < (m.paths []).length := reads.length_eq ▸ lt
  refine ⟨(m.paths [])[i], List.getElem?_eq_getElem lt', ?_⟩
  have here := reads.get lt' lt
  simp only [List.get_eq_getElem, eq] at here
  rw [scopeAt_of_element (Linked.ofForest f) he]
  exact here e rfl

/-! ### Changes -/

/-- The documents that setting attributes, setting texts and signing make of a document. -/
inductive Edited (d : Document) : Document → Prop
  | refl : Edited d d
  | setAttribute {d₁ d₂ : Document} (hd : Edited d d₁) {id : NodeId} {name value : String}
    (h : d₁.setAttribute id name value = .ok d₂) : Edited d d₂
  | setText {d₁ d₂ : Document} (hd : Edited d d₁) {id : NodeId} {content : String}
    (h : d₁.setText id content = .ok d₂) : Edited d d₂
  | sign {d₁ : Document} (hd : Edited d d₁) (ctx : Context) (id issueInstant : String) :
    Edited d (SamlSeal.sign ctx d₁ id issueInstant).document

/-- The elements of a document keep their names, the bindings in force and the names of their
attributes; new attributes have no namespace. -/
structure Keeps (d d' : Document) : Prop where
  linked : d'.Linked
  element : ∀ x e', d'.Below root x → d'.element? x = some e' → ∃ e, d.Below root x ∧
    d.element? x = some e ∧ e'.name = e.name ∧
    (∀ a ∈ e'.attributes, a.name.uri = none ∨ ∃ b ∈ e.attributes, a.name = b.name) ∧
    d'.scopeAt x = d.scopeAt x

namespace Keeps

variable {d'' : Document} {id : NodeId}

theorem refl (hd : d.Linked) : d.Keeps d :=
  ⟨hd, fun _ e below he => ⟨e, below, he, rfl, fun a ha => .inr ⟨a, ha, rfl⟩, rfl⟩⟩

theorem trans (h : d.Keeps d') (h' : d'.Keeps d'') : d.Keeps d'' := by
  refine ⟨h'.linked, fun x e'' below he'' => ?_⟩
  obtain ⟨e', below', he', name', attributes', scope'⟩ := h'.element x e'' below he''
  obtain ⟨e, below, he, name, attributes, scope⟩ := h.element x e' below' he'
  refine ⟨e, below, he, name'.trans name, fun a ha => ?_, scope'.trans scope⟩
  rcases attributes' a ha with none | ⟨b, hb, eq⟩
  · exact .inl none
  · rw [eq]
    exact attributes b hb

theorem setAttribute (hd : d.Linked) {name value : String}
    (h : d.setAttribute id name value = .ok d') : d.Keeps d' := by
  refine ⟨hd.setAttribute h, fun x e' below he' => ?_⟩
  have below' : d.Below root x := by
    clear he'
    induction below with
    | refl => exact .refl
    | step up _ ih => exact .step (parent?_setAttribute h _ ▸ up) ih
  obtain ⟨e, he, rfl⟩ := setAttribute_cases h
  rw [element?_replaceElement he] at he'
  split at he'
  · next here =>
    obtain rfl := Option.some.inj he'
    refine ⟨e, below', here ▸ he, rfl, fun a ha => ?_, scopeAt_setAttribute h hd x⟩
    rcases mem_set ha with eq | old
    · exact .inl (by rw [eq]; rfl)
    · exact .inr old
  · exact ⟨e', below', he', rfl, fun a ha => .inr ⟨a, ha, rfl⟩, scopeAt_setAttribute h hd x⟩

theorem setText (hd : d.Linked) {content : String} (h : d.setText id content = .ok d') :
    d.Keeps d' := by
  have linked := hd.setText h
  -- a node that still has a parent has the one it had
  have parent : ∀ {c p}, c < d.size → d'.parent? c = some p → d.parent? c = some p := by
    intro c p old up
    rw [parent?_setText h old] at up
    split at up
    · cases up
    · exact up
  refine ⟨linked, fun x e' below he' => ?_⟩
  have he := element?_setText h x ▸ he'
  have old := lt_size_of_element? he
  have above : ∀ a, d'.Below a x → a < d.size := fun a ha => Nat.lt_of_le_of_lt (ha.le linked) old
  refine ⟨e', ?_, he, rfl, fun a ha => .inr ⟨a, ha, rfl⟩, ?_⟩
  · clear he' he
    induction below with
    | refl => exact .refl
    | step up hp ih =>
      have lt := linked.parent_lt up
      exact .step (parent old up) (ih (Nat.lt_trans lt old) fun a ha => above a (.step up ha))
  · refine (scopeAt_congr linked hd x fun a ha => ⟨?_, by rw [element?_setText h]⟩).symm
    -- all nodes above have a parent but node 0, which never had one
    have top : d'.Below root a := by
      rcases below.total ha with top | top
      · exact top
      · rw [Nat.le_zero.1 (top.le linked)]
        exact .refl
    rcases top.cases_parent with rfl | ⟨p, up, -⟩
    · rw [hd.parent?_root, linked.parent?_root]
    · rw [up, parent (above a ha) up]

theorem sign (hd : d.Linked) (ctx : Context) (id issueInstant : String) :
    d.Keeps (SamlSeal.sign ctx d id issueInstant).document :=
  sign_keeps (fun keeps h => keeps.trans (setAttribute keeps.linked h))
    (fun keeps h => keeps.trans (setText keeps.linked h)) (refl hd) ctx id issueInstant

theorem of_edited (hd : d.Linked) (h : d.Edited d') : d.Keeps d' := by
  induction h with
  | refl => exact refl hd
  | setAttribute _ h ih => exact ih.trans (setAttribute ih.linked h)
  | setText _ h ih => exact ih.trans (setText ih.linked h)
  | sign _ ctx id issueInstant ih => exact ih.trans (sign ih.linked ctx id issueInstant)

end Keeps

/-- A document that was read, and possibly changed afterwards, has at every element the bindings
that the start tags around it make, and the names of the element mean what they were resolved
to. -/
theorem parse_consistent {text : String} (h : parse text = .ok d) (edited : d.Edited d') :
    ∃ m, Markup.read? text.toList = some m ∧ ∀ x e, d'.Below root x → d'.element? x = some e →
      ∃ path, (m.paths [])[x - 1]? = some path ∧ e.Reads (d'.scopeAt x) path := by
  obtain ⟨m, hm, reads⟩ := reads_of_parse h
  refine ⟨m, hm, fun x e' below he' => ?_⟩
  have keeps := Keeps.of_edited (Reachable.parse h).linked edited
  obtain ⟨e, -, he, name, attributes, scope⟩ := keeps.element x e' below he'
  obtain ⟨path, hpath, hreads⟩ := reads x e he
  exact ⟨path, hpath, scope ▸ hreads.keeps name attributes⟩

/-- A document in which a default namespace ends and a prefix gets another meaning. -/
def nested : Document := ofForest
  (.node (.element ⟨⟨none, "a", some "urn:d"⟩, [], [⟨"", "urn:d"⟩, ⟨"p", "urn:u"⟩]⟩)
    (.node (.element ⟨⟨some "p", "b", some "urn:v"⟩, [⟨⟨some "p", "k", some "urn:v"⟩, "1"⟩],
      [⟨"p", "urn:v"⟩, ⟨"", ""⟩]⟩)
      (.node (.element ⟨⟨none, "c", some ""⟩, [], []⟩) .nil .nil) .nil) .nil)

/-- The same document with one more attribute. -/
def nestedWithId : Document := nested.replaceElement 2
  ⟨⟨some "p", "b", some "urn:v"⟩, [⟨⟨some "p", "k", some "urn:v"⟩, "1"⟩, ⟨QName.plain "ID", "i"⟩],
    [⟨"p", "urn:v"⟩, ⟨"", ""⟩]⟩

theorem parse_consistent_nested :
    parse "<a xmlns='urn:d' xmlns:p='urn:u'><p:b xmlns='' p:k='1' xmlns:p='urn:v'><c/></p:b></a>" =
      .ok nested ∧
    nested.setAttribute 2 "ID" "i" = .ok nestedWithId ∧ nestedWithId.ConsistentBelow root ∧
    (nestedWithId.scopeAt 2).uri? "p" = some "urn:v" ∧
    (nestedWithId.scopeAt 3).uri? "" = none := by
  have read : parse
      "<a xmlns='urn:d' xmlns:p='urn:u'><p:b xmlns='' p:k='1' xmlns:p='urn:v'><c/></p:b></a>" =
      .ok nested := parse_eq_ok (by decide +kernel)
  have set : nested.setAttribute 2 "ID" "i" = .ok nestedWithId := rfl
  have orderly : ∀ m ∈ Markup.read?
      "<a xmlns='urn:d' xmlns:p='urn:u'><p:b xmlns='' p:k='1' xmlns:p='urn:v'><c/></p:b></a>".toList,
      ∀ path ∈ m.paths [], ∀ t ∈ path, (t.declared.map (·.pfx)).Nodup ∧
        ∀ d ∈ t.declared, d.pfx ≠ "" → d.uri ≠ "" := by decide +kernel
  refine ⟨read, set, ?_, by decide +kernel, by decide +kernel⟩
  obtain ⟨m, hm, reads⟩ := parse_consistent read (.setAttribute .refl set)
  intro x below e he
  obtain ⟨path, hpath, hreads⟩ := reads x e below he
  refine hreads.consistent fun t ht p => ?_
  obtain ⟨nodup, nonempty⟩ := orderly m hm path (List.mem_of_getElem? hpath) t ht
  exact Tag.orderly_of_nodup nodup nonempty p

/-- A document in which a prefix is bound to the empty namespace. -/
def unbound : Document := ofForest
  (.node (.element ⟨⟨none, "a", none⟩, [], [⟨"p", "urn:u"⟩]⟩)
    (.node (.element ⟨⟨some "p", "b", some ""⟩, [], []⟩) .nil .nil) .nil)

/-- Binding a prefix to the empty namespace is not kept: the prefix goes on to mean what it means
around the element, though the name of the element was resolved otherwise. -/
theorem parse_inconsistent :
    parse "<a xmlns:p='urn:u'><p:b xmlns:p=''/></a>" = .ok unbound ∧
    (∀ m ∈ Markup.read? "<a xmlns:p='urn:u'><p:b xmlns:p=''/></a>".toList,
      ∀ path ∈ (m.paths [])[1]?, Tag.inForce path "p" = none) ∧
    (unbound.scopeAt 2).uri? "p" = some "urn:u" ∧
    ∀ e ∈ unbound.element? 2, ¬ e.Consistent (unbound.scopeAt 2) :=
  ⟨parse_eq_ok (by decide +kernel), by decide +kernel, by decide +kernel, by decide +kernel⟩

end Document

end SamlSeal.Xml
