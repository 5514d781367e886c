import SamlSeal.Proofs.Lexical
import SamlSeal.Proofs.View

/-!
# Content

What a document says at a node, and what its canonical form says about it, apart from the way it is
written.

* `Document.content`: the elements below a node, each with its prefix, local name, namespace and
  attributes, and what is between them.  Texts that touch are one text, and empty ones are left out.
* `Document.reading`: the same, as far as the canonical form is written from it.
* `Element.Consistent`: the names of an element mean in the bindings in force what the element says
  that they mean.
* `Opening.declared`: what the names in a start tag declare.
* `decode`: reads content off start tags.  Only the declarations in the tags are used, so every
  namespace has to be found where it was written; `decode_render` says that it is.
-/

namespace SamlSeal.Canonical

open Xml

variable {ε ε' : Type}

/-! ### Pieces -/

/-- Changes what is known of elements. -/
def Piece.map (g : ε → ε') : Piece ε → Piece ε'
  | .element e => .element (g e)
  | .text content => .text content
  | .comment content => .comment content
  | .instruction target data => .instruction target data
  | .lineBreak => .lineBreak

/-- Puts a text in front of some pieces.  Texts that touch are one text. -/
def joinText (content : String) : Forest (Piece ε) → Forest (Piece ε)
  | .node (.text s) _ next => .node (.text (content ++ s)) .nil next
  | f => if content = "" then f else .node (.text content) .nil f

/-- The data of a processing instruction up to what canonical form does not tell apart: empty data
is none, and a carriage return is the reference for it. -/
def plainData : Option String → Option String
  | none => none
  | some data =>
    if data = "" then none
    else some (String.ofList
      (data.toList.flatMap fun c => if c = '\r' then ['&', '#', 'x', 'D', ';'] else [c]))

/-- Pieces with texts joined and the data of processing instructions made plain. -/
def merged : Forest (Piece ε) → Forest (Piece ε)
  | .nil => .nil
  | .node piece inner next =>
    match piece with
    | .element e => .node (.element e) (merged inner) (merged next)
    | .text content => joinText content (merged next)
    | .comment content => .node (.comment content) .nil (merged next)
    | .instruction target data => .node (.instruction target (plainData data)) .nil (merged next)
    | .lineBreak => .node .lineBreak .nil (merged next)

/-- What is said of an element.  Without prefix and without namespace, the respective text is
empty. -/
structure ElementContent where
  pfx : String
  localName : String
  uri : String
  /-- The attributes by namespace and local name, so that equal sets of attributes are equal
  lists. -/
  attributes : List WrittenAttribute
  deriving DecidableEq, Repr

/-- What canonical form says about an element. -/
def ElementContent.ofElement (e : Element) : ElementContent :=
  ⟨elementPfx e, e.name.localName, e.name.uri.getD "", sortedAttributes e⟩

end SamlSeal.Canonical

namespace SamlSeal.Xml

open Canonical

/-! ### Consistent elements -/

/-- The names of an element mean in the given bindings what they were resolved to.  Of the prefix
`xml` nothing is asked. -/
structure Element.Consistent (e : Element) (scope : Scope) : Prop where
  unprefixed : elementPfx e = "" → (scope.uri? "").getD "" = e.name.uri.getD ""
  prefixed : elementPfx e ≠ "" → elementPfx e ≠ "xml" →
    ∃ uri, e.name.uri = some uri ∧ scope.uri? (elementPfx e) = some uri
  attributes : ∀ a ∈ e.attributes, a.name.uri = none ∨ a.name.uri = some Namespace.xml ∨
    ∃ p uri, a.name.pfx = some p ∧ p ≠ "" ∧ a.name.uri = some uri ∧ scope.uri? p = some uri

/-- Consistency can be checked. -/
instance (e : Element) (scope : Scope) : Decidable (e.Consistent scope) :=
  decidable_of_iff
    ((elementPfx e = "" → (scope.uri? "").getD "" = e.name.uri.getD "") ∧
      (elementPfx e ≠ "" → elementPfx e ≠ "xml" →
        ∃ uri ∈ e.name.uri, scope.uri? (elementPfx e) = some uri) ∧
      ∀ a ∈ e.attributes, a.name.uri = none ∨ a.name.uri = some Namespace.xml ∨
        ∃ p ∈ a.name.pfx, ∃ uri ∈ a.name.uri, p ≠ "" ∧ scope.uri? p = some uri)
    (by
      constructor
      · rintro ⟨unprefixed, prefixed, attributes⟩
        refine ⟨unprefixed, prefixed, fun a ha => ?_⟩
        rcases attributes a ha with none | xml | ⟨p, hp, uri, huri, ne, bound⟩
        · exact .inl none
        · exact .inr (.inl xml)
        · exact .inr (.inr ⟨p, uri, hp, ne, huri, bound⟩)
      · rintro ⟨unprefixed, prefixed, attributes⟩
        refine ⟨unprefixed, prefixed, fun a ha => ?_⟩
        rcases attributes a ha with none | xml | ⟨p, uri, hp, ne, huri, bound⟩
        · exact .inl none
        · exact .inr (.inl xml)
        · exact .inr (.inr ⟨p, hp, uri, huri, ne, bound⟩))

namespace Document

/-- The names of all elements below a node mean what they were resolved to. -/
def ConsistentBelow (d : Document) (a : NodeId) : Prop :=
  ∀ x, d.Below a x → ∀ e, d.element? x = some e → e.Consistent (d.scopeAt x)

end Document

/-! ### Content -/

/-- An attribute by its names and its value. -/
def Attribute.content (a : Attribute) : WrittenAttribute :=
  ⟨a.name.uri.getD "", a.name.localName, a.name.qualified, a.value⟩

/-- An element by its names and the set of its attributes. -/
def Element.content (e : Element) : ElementContent where
  pfx := e.name.pfx.getD ""
  localName := e.name.localName
  uri := e.name.uri.getD ""
  attributes := Sorting.sort
    (fun a b => decide (a.uri < b.uri ∨ a.uri = b.uri ∧ a.localName ≤ b.localName))
    (e.attributes.map Attribute.content)

/-- What some nodes say, without `excluded` and what is below it: the elements, with what is inside
them, and between them the text, the processing instructions, and the comments on demand. -/
def Forest.content (excluded : Option NodeId) (comments : Bool) :
    Forest (NodeId × Kind) → Forest (Piece ElementContent)
  | .nil => .nil
  | .node (id, kind) inner next =>
    let rest := next.content excluded comments
    if excluded = some id then rest
    else match kind with
      | .document => inner.content excluded comments ++ rest
      | .element e => .node (.element e.content) (inner.content excluded comments) rest
      | .text content => joinText content rest
      | .comment content => if comments then .node (.comment content) .nil rest else rest
      | .instruction target data => .node (.instruction target (plainData data)) .nil rest

theorem Forest.content_node (excluded : Option NodeId) (comments : Bool) (id : NodeId) (kind : Kind)
    (inner next : Forest (NodeId × Kind)) :
    Forest.content excluded comments (.node (id, kind) inner next) =
      if excluded = some id then next.content excluded comments
      else match kind with
        | .document => inner.content excluded comments ++ next.content excluded comments
        | .element e => .node (.element e.content) (inner.content excluded comments)
            (next.content excluded comments)
        | .text content => joinText content (next.content excluded comments)
        | .comment content =>
          if comments then .node (.comment content) .nil (next.content excluded comments)
          else next.content excluded comments
        | .instruction target data =>
          .node (.instruction target (plainData data)) .nil (next.content excluded comments) := by
  cases kind <;> rfl

namespace Document

/-- What a document says at a node, without `excluded` and what is below it. -/
def content (d : Document) (apex : NodeId) (excluded : Option NodeId) (comments : Bool) :
    Forest (Piece ElementContent) :=
  (d.view [apex]).content excluded comments

/-- What the canonical form of a node says. -/
def reading (d : Document) (apex : NodeId) (excluded : Option NodeId) (comments : Bool) :
    Forest (Piece ElementContent) :=
  merged ((d.retained apex excluded comments).map (Piece.map .ofElement))

end Document

end SamlSeal.Xml

namespace SamlSeal.Canonical

open Xml

/-! ### Bindings that start tags make -/

section Bindings

variable {inclusive : List String} {scope written : Scope} {e : Element}

/-- A prefix keeps its binding if all declarations of it make the same one. -/
theorem uri?_foldl_bind {p uri : String} {ds : List Declaration} {s : Scope}
    (same : ∀ d ∈ ds, d.pfx = p → d.uri = uri)
    (some_or : s.uri? p = some uri ∨ ∃ d ∈ ds, d.pfx = p) :
    Scope.uri? (ds.foldl Scope.bind s) p = some uri := by
  induction ds generalizing s with
  | nil => simpa using some_or
  | cons d ds ih =>
    rw [List.foldl_cons]
    refine ih (fun d' hd' => same d' (List.mem_cons_of_mem _ hd')) ?_
    rw [Scope.uri?_bind]
    by_cases here : p = d.pfx
    · rw [if_pos here, same d List.mem_cons_self here.symm]
      exact .inl rfl
    · rw [if_neg here]
      rcases some_or with bound | ⟨d', hd', eq⟩
      · exact .inl bound
      · rcases List.mem_cons.1 hd' with rfl | hd'
        · exact absurd eq.symm here
        · exact .inr ⟨d', hd', eq⟩

theorem uri?_foldl_bind_of_ne {p : String} {ds : List Declaration} {s : Scope}
    (other : ∀ d ∈ ds, d.pfx ≠ p) : Scope.uri? (ds.foldl Scope.bind s) p = s.uri? p := by
  induction ds generalizing s with
  | nil => rfl
  | cons d ds ih =>
    rw [List.foldl_cons, ih fun d' hd' => other d' (List.mem_cons_of_mem _ hd'), Scope.uri?_bind,
      if_neg (Ne.symm (other d List.mem_cons_self))]

theorem pfx_of_declaration? {p : String} {d : Declaration}
    (h : declaration? scope written p = some d) : d.pfx = p := by
  unfold declaration? at h
  split at h
  · obtain ⟨-, h⟩ := Option.ite_none_left_eq_some.1 h
    obtain rfl := Option.some.inj h
    rfl
  · obtain ⟨⟨empty, -⟩, h⟩ := Option.ite_none_right_eq_some.1 h
    obtain rfl := Option.some.inj h
    exact empty.symm

theorem mem_rendered {d : Declaration} : d ∈ rendered inclusive scope written e ↔
    d.pfx ∈ utilized inclusive e ∧ declaration? scope written d.pfx = some d := by
  rw [rendered, Sorting.mem_sort, List.mem_filterMap]
  constructor
  · rintro ⟨p, hp, h⟩
    obtain rfl := pfx_of_declaration? h
    exact ⟨hp, h⟩
  · rintro ⟨hp, h⟩
    exact ⟨d.pfx, hp, h⟩

/-- A declaration that is written binds a prefix as in the document and not as around the tag, or it
takes away a default namespace that was written. -/
theorem cases_rendered {d : Declaration} (hd : d ∈ rendered inclusive scope written e) :
    scope.uri? d.pfx = some d.uri ∧ written.uri? d.pfx ≠ some d.uri ∨
      d = ⟨"", ""⟩ ∧ (written.uri? "").any (· != "") = true := by
  obtain ⟨-, made⟩ := mem_rendered.1 hd
  unfold declaration? at made
  split at made
  · next bound =>
    obtain ⟨new, made⟩ := Option.ite_none_left_eq_some.1 made
    rw [← Option.some.inj made] at bound new ⊢
    exact .inl ⟨bound, new⟩
  · obtain ⟨⟨-, ended⟩, made⟩ := Option.ite_none_right_eq_some.1 made
    exact .inr ⟨(Option.some.inj made).symm, ended⟩

/-- A utilized prefix means inside the start tag what it means in the document. -/
theorem uri?_bindings {p uri : String} (hp : p ∈ utilized inclusive e)
    (bound : scope.uri? p = some uri) :
    ((Opening.ofElement inclusive scope written e).bindings written).uri? p = some uri := by
  refine uri?_foldl_bind ?_ ?_
  · intro d hd eq
    obtain ⟨-, h⟩ := mem_rendered.1 hd
    rw [eq, declaration?, bound] at h
    obtain ⟨-, h⟩ := Option.ite_none_left_eq_some.1 h
    rw [← Option.some.inj h]
  · by_cases known : written.uri? p = some uri
    · exact .inl known
    · refine .inr ⟨⟨p, uri⟩, mem_rendered.2 ⟨hp, ?_⟩, rfl⟩
      rw [declaration?, bound]
      exact if_neg known

/-- Without a default namespace in the document there is none inside the start tag, if that matters
there. -/
theorem default_bindings (hp : "" ∈ utilized inclusive e) (none : scope.uri? "" = none) :
    (((Opening.ofElement inclusive scope written e).bindings written).uri? "").getD "" = "" := by
  by_cases known : (written.uri? "").any (· != "") = true
  · have declared : declaration? scope written "" = some ⟨"", ""⟩ := by
      rw [declaration?, none]
      exact if_pos ⟨rfl, known⟩
    have bound : ((Opening.ofElement inclusive scope written e).bindings written).uri? "" =
        some "" := by
      refine uri?_foldl_bind ?_ (.inr ⟨⟨"", ""⟩, mem_rendered.2 ⟨hp, declared⟩, rfl⟩)
      intro d hd eq
      obtain ⟨-, h⟩ := mem_rendered.1 hd
      rw [eq, declared] at h
      rw [← Option.some.inj h]
    rw [bound]
    rfl
  · have undeclared : ∀ d ∈ rendered inclusive scope written e, d.pfx ≠ "" := by
      intro d hd eq
      obtain ⟨-, h⟩ := mem_rendered.1 hd
      rw [eq, declaration?, none] at h
      obtain ⟨⟨-, h⟩, -⟩ := Option.ite_none_right_eq_some.1 h
      exact known h
    have kept : ((Opening.ofElement inclusive scope written e).bindings written).uri? "" =
        written.uri? "" := uri?_foldl_bind_of_ne undeclared
    rw [kept]
    cases h : written.uri? "" with
    | none => rfl
    | some uri =>
      rw [h] at known
      simpa using known

/-- Only what can be bound is declared. -/
theorem isPfx_rendered (sound : Namespaces.Sound scope) {d : Declaration}
    (hd : d ∈ rendered inclusive scope written e) : IsPfx d.pfx := by
  rcases cases_rendered hd with ⟨bound, -⟩ | ⟨rfl, -⟩
  · exact sound.isPfx bound
  · exact isPfx_empty

theorem elementPfx_mem_utilized (ne : elementPfx e ≠ "xml") :
    elementPfx e ∈ utilized inclusive e := by
  simp [utilized, ne]

theorem attributePfx_mem_utilized {a : Attribute} (ha : a ∈ e.attributes)
    (ne : attributePfx a ≠ "") (notXml : attributePfx a ≠ "xml") :
    attributePfx a ∈ utilized inclusive e := by
  have mem : ∃ b ∈ e.attributes, attributePfx b = attributePfx a := ⟨a, ha, rfl⟩
  simp [utilized, ne, notXml, mem]

end Bindings

/-! ### Names in start tags -/

/-- The name that a declaration has in a start tag. -/
def declarationName (d : Declaration) : String :=
  if d.pfx = "" then "xmlns" else "xmlns:" ++ d.pfx

/-- What stands in a start tag: names and values, declarations first. -/
def Opening.pairs (o : Opening) : List (String × String) :=
  o.declarations.map (fun d => (declarationName d, d.uri)) ++
    o.attributes.map fun a => (a.qualified, a.value)

theorem declaration_write_eq (d : Declaration) :
    d.write = writeAttribute (declarationName d) d.uri := by
  unfold Declaration.write writeAttribute declarationName
  by_cases empty : d.pfx = ""
  · simp [empty]
  · simp [empty]

theorem Opening.write_eq (o : Opening) : o.write =
    '<' :: (o.name.toList ++ (o.pairs.flatMap (fun p => writeAttribute p.1 p.2) ++ ['>'])) := by
  have declarations : o.declarations.flatMap Declaration.write =
      o.declarations.flatMap fun d => writeAttribute (declarationName d) d.uri :=
    congrArg (o.declarations.flatMap ·) (funext declaration_write_eq)
  simp only [Opening.write, writeLists, declarations, Opening.pairs, List.flatMap_append,
    List.flatMap_map, List.append_assoc, List.cons_append]
  rfl

theorem isDeclaration_declarationName (d : Declaration) :
    StartTag.isDeclaration (declarationName d).toList = true := by
  unfold declarationName
  split <;> simp [StartTag.isDeclaration]

theorem declarationName_inj {d d' : Declaration} (h : declarationName d = declarationName d') :
    d.pfx = d'.pfx := by
  have colon : ∀ p : String, "xmlns" ≠ "xmlns:" ++ p := by
    intro p eq
    have := congrArg String.toList eq
    simp at this
  unfold declarationName at h
  split at h <;> split at h
  · next e e' => rw [e, e']
  · exact absurd h (colon _)
  · exact absurd h.symm (colon _)
  · exact String.append_right_inj _ |>.1 h

/-- The prefix that a name in a start tag declares, if it does: `xmlns` declares the default
namespace, and `xmlns:` stands in front of other prefixes. -/
def declaredPfx? (name : String) : Option String :=
  if StartTag.isDeclaration name.toList then some (String.ofList (name.toList.drop 6)) else none

/-- The declarations that a start tag makes, whatever they were written for. -/
def Opening.declared (o : Opening) : List Declaration :=
  o.pairs.filterMap fun p => (declaredPfx? p.1).map (⟨·, p.2⟩)

theorem declaredPfx?_declarationName (d : Declaration) :
    declaredPfx? (declarationName d) = some d.pfx := by
  rw [declaredPfx?, if_pos (isDeclaration_declarationName d), declarationName]
  split
  · next empty => rw [empty]; rfl
  · simp

/-- Where no attribute has the name of a declaration, a tag declares what it was made to declare. -/
theorem Opening.declared_eq {o : Opening}
    (apart : ∀ a ∈ o.attributes, StartTag.isDeclaration a.qualified.toList = false) :
    o.declared = o.declarations := by
  have declarations : (o.declarations.map fun d => (declarationName d, d.uri)).filterMap
      (fun p => (declaredPfx? p.1).map (Declaration.mk · p.2)) = o.declarations := by
    rw [List.filterMap_map]
    refine (List.filterMap_congr fun d _ => ?_).trans List.filterMap_some
    show (declaredPfx? (declarationName d)).map (Declaration.mk · d.uri) = some d
    rw [declaredPfx?_declarationName]
    rfl
  have attributes : (o.attributes.map fun a => (a.qualified, a.value)).filterMap
      (fun p => (declaredPfx? p.1).map (Declaration.mk · p.2)) = [] := by
    rw [List.filterMap_eq_nil_iff]
    intro p hp
    obtain ⟨a, ha, rfl⟩ := List.mem_map.1 hp
    simp [declaredPfx?, apart a ha]
  rw [declared, pairs, List.filterMap_append, declarations, attributes, List.append_nil]

/-! ### Reading content off start tags -/

/-- The two parts of a name at its first colon; without a colon the first part is empty. -/
def splitName (name : String) : String × String :=
  match name.toList.span (· != ':') with
  | (whole, []) => ("", String.ofList whole)
  | (front, _ :: back) => (String.ofList front, String.ofList back)

/-- An attribute as the start tag has it, with its name resolved in the given bindings. -/
def readAttribute (written : Scope) (a : WrittenAttribute) : WrittenAttribute :=
  let name := splitName a.qualified
  let uri := if name.1 = "" then "" else if name.1 = "xml" then Namespace.xml
    else (written.uri? name.1).getD ""
  ⟨uri, name.2, a.qualified, a.value⟩

/-- What a start tag says in the given bindings, its own included. -/
def ElementContent.ofOpening (o : Opening) (written : Scope) : ElementContent :=
  let name := splitName o.name
  ⟨name.1, name.2, (written.uri? name.1).getD "", o.attributes.map (readAttribute written)⟩

/-- What tags and the text between them say, given the bindings that the tags around them make. -/
def decode (written : Scope) : Forest (Piece Opening) → Forest (Piece ElementContent)
  | .nil => .nil
  | .node piece inner next =>
    let next := decode written next
    match piece with
    | .element o =>
      let inside := o.bindings written
      .node (.element (.ofOpening o inside)) (decode inside inner) next
    | .text content => .node (.text content) .nil next
    | .comment content => .node (.comment content) .nil next
    | .instruction target data => .node (.instruction target data) .nil next
    | .lineBreak => .node .lineBreak .nil next

/-- A start tag as far as it can be read back: the namespaces and local names of attributes are not
in the text. -/
def Opening.bare (o : Opening) : Opening :=
  { o with attributes := o.attributes.map fun a => ⟨"", "", a.qualified, a.value⟩ }

/-- Reading uses only what can be read back. -/
theorem decode_bare (written : Scope) (f : Forest (Piece Opening)) :
    decode written (f.map (Piece.map Opening.bare)) = decode written f := by
  have opening (o : Opening) (s : Scope) :
      ElementContent.ofOpening o.bare s = ElementContent.ofOpening o s := by
    simp only [ElementContent.ofOpening, Opening.bare, List.map_map, ElementContent.mk.injEq,
      true_and]
    exact List.map_congr_left fun a _ => rfl
  induction f generalizing written with
  | nil => rfl
  | node piece inner next ihInner ihNext =>
    cases piece with
    | element o =>
      have bindings : o.bare.bindings written = o.bindings written := rfl
      simp only [Forest.map, Piece.map, decode, bindings, opening, ihInner, ihNext]
    | _ => simp only [Forest.map, Piece.map, decode, ihNext]

theorem decode_joinText (written : Scope) (content : String) (f : Forest (Piece Opening)) :
    decode written (joinText content f) = joinText content (decode written f) := by
  cases f with
  | nil =>
    unfold joinText
    by_cases empty : content = "" <;> simp [empty, decode]
  | node piece inner next =>
    cases piece with
    | text s => rfl
    | _ =>
      unfold joinText
      by_cases empty : content = "" <;> simp [empty, decode]

/-- Texts may be joined before or after reading. -/
theorem decode_merged (written : Scope) (f : Forest (Piece Opening)) :
    decode written (merged f) = merged (decode written f) := by
  induction f generalizing written with
  | nil => rfl
  | node piece inner next ihInner ihNext =>
    cases piece with
    | element o => simp only [merged, decode, ihInner, ihNext]
    | text content => simp only [merged, decode, decode_joinText, ihNext]
    | _ => simp only [merged, decode, ihNext]

/-! ### Reading what was written -/

theorem splitName_of_not_mem {name : String} (h : ':' ∉ name.toList) :
    splitName name = ("", name) := by
  have all : ∀ c ∈ name.toList, (c != ':') = true := by
    intro c hc
    simpa using fun eq : c = ':' => h (eq ▸ hc)
  rw [splitName, List.span_eq_takeWhile_dropWhile, List.takeWhile_eq_self_iff.2 all,
    List.dropWhile_eq_nil_iff.2 all]
  simp

theorem splitName_append {p name : String} (h : ':' ∉ p.toList) :
    splitName (p ++ ":" ++ name) = (p, name) := by
  have all : ∀ c ∈ p.toList, (c != ':') = true := by
    intro c hc
    simpa using fun eq : c = ':' => h (eq ▸ hc)
  have text : (p ++ ":" ++ name).toList = p.toList ++ ':' :: name.toList := by simp
  rw [splitName, text, List.span_eq_takeWhile_dropWhile, List.takeWhile_append_of_pos all,
    List.dropWhile_append_of_pos all]
  simp

/-- A name is split into the parts that it was written from. -/
theorem splitName_qualified {pfx : Option String} {name : String} {uri : Option String}
    (hp : ':' ∉ (pfx.getD "").toList) (hn : ':' ∉ name.toList) :
    splitName (QName.qualified ⟨pfx, name, uri⟩) = (pfx.getD "", name) := by
  cases pfx with
  | none => exact splitName_of_not_mem hn
  | some p =>
    by_cases empty : p = ""
    · simpa [QName.qualified, empty] using splitName_of_not_mem hn
    · simpa [QName.qualified, empty] using splitName_append hp

section Reading

variable {inclusive : List String} {scope written : Scope} {e : Element}

/-- The prefix that an attribute is written with: none, `xml`, or one that is bound. -/
theorem attributePfx_bound (consistent : e.Consistent scope) {a : Attribute}
    (ha : a ∈ e.attributes) :
    (attributePfx a = "" ∧ a.name.uri = none) ∨
    (attributePfx a = "xml" ∧ a.name.uri = some Namespace.xml) ∨
    ∃ uri, a.name.uri = some uri ∧ scope.uri? (attributePfx a) = some uri ∧
      attributePfx a ≠ "" := by
  rcases consistent.attributes a ha with none | xml | ⟨p, uri, hp, ne, huri, bound⟩
  · exact .inl ⟨by rw [attributePfx, none], none⟩
  · exact .inr (.inl ⟨by simp [attributePfx, xml], xml⟩)
  · by_cases xml : uri = Namespace.xml
    · exact .inr (.inl ⟨by simp [attributePfx, huri, xml], by rw [huri, xml]⟩)
    · have eq : attributePfx a = p := by simp [attributePfx, huri, xml, hp]
      rw [eq]
      exact .inr (.inr ⟨uri, huri, bound, ne⟩)

/-- In a sound scope the bound prefix is one that can be bound. -/
theorem attributePfx_cases (sound : Namespaces.Sound scope) (consistent : e.Consistent scope)
    {a : Attribute} (ha : a ∈ e.attributes) :
    (attributePfx a = "" ∧ a.name.uri = none) ∨
    (attributePfx a = "xml" ∧ a.name.uri = some Namespace.xml) ∨
    ∃ uri, a.name.uri = some uri ∧ scope.uri? (attributePfx a) = some uri ∧
      attributePfx a ≠ "" ∧ IsPfx (attributePfx a) := by
  rcases attributePfx_bound consistent ha with none | xml | ⟨uri, huri, bound, ne⟩
  · exact .inl none
  · exact .inr (.inl xml)
  · exact .inr (.inr ⟨uri, huri, bound, ne, sound.isPfx bound⟩)

/-- The written name of an attribute can be split again. -/
theorem splitName_writtenAttribute (sound : Namespaces.Sound scope) (he : e.Sound)
    (consistent : e.Consistent scope) {a : Attribute} (ha : a ∈ e.attributes) :
    splitName (writtenAttribute a).qualified = (attributePfx a, a.name.localName) := by
  have colon : ':' ∉ (attributePfx a).toList := by
    rcases attributePfx_cases sound consistent ha with ⟨eq, -⟩ | ⟨eq, -⟩ | ⟨uri, -, -, -, isPfx⟩
    · simp [eq]
    · rw [eq]
      decide
    · exact isPfx.colon_not_mem
  have split : splitName (QName.qualified ⟨some (attributePfx a), a.name.localName, a.name.uri⟩) =
      _ := splitName_qualified colon (he.attributes a ha).1.colon_not_mem
  exact split

/-- What looks like a declaration is the word `xmlns` alone or in front of a colon. -/
theorem splitName_of_isDeclaration {name : String}
    (h : StartTag.isDeclaration name.toList = true) :
    (splitName name).1 = "xmlns" ∨ splitName name = ("", "xmlns") := by
  simp only [StartTag.isDeclaration, Bool.or_eq_true, beq_iff_eq, List.isPrefixOf_iff_prefix] at h
  rcases h with whole | ⟨rest, eq⟩
  · have : name = "xmlns" := String.toList_injective (by rw [whole]; rfl)
    rw [this]
    exact .inr (splitName_of_not_mem (by decide))
  · have : name = "xmlns" ++ ":" ++ String.ofList rest :=
      String.toList_injective (by rw [← eq]; simp)
    rw [this, splitName_append (by decide)]
    exact .inl rfl

/-- An attribute with another prefix than `xmlns` is not written as a declaration would be. -/
theorem isDeclaration_writtenAttribute (sound : Namespaces.Sound scope) (he : e.Sound)
    (consistent : e.Consistent scope) {a : Attribute} (ha : a ∈ e.attributes)
    (ordinary : attributePfx a ≠ "xmlns") :
    StartTag.isDeclaration (writtenAttribute a).qualified.toList = false := by
  -- neither the prefix nor the whole name is `xmlns`
  have split := splitName_writtenAttribute sound he consistent ha
  refine Bool.eq_false_iff.2 fun looks => ?_
  rcases splitName_of_isDeclaration looks with pfx | whole
  · rw [split] at pfx
    exact ordinary pfx
  · rw [split] at whole
    exact (he.attributes a ha).2 (Prod.mk.inj whole).2

theorem readAttribute_writtenAttribute (sound : Namespaces.Sound scope) (he : e.Sound)
    (consistent : e.Consistent scope) {a : Attribute} (ha : a ∈ e.attributes) :
    readAttribute ((Opening.ofElement inclusive scope written e).bindings written)
      (writtenAttribute a) = writtenAttribute a := by
  rw [readAttribute, splitName_writtenAttribute sound he consistent ha]
  rcases attributePfx_cases sound consistent ha with
    ⟨eq, huri⟩ | ⟨eq, huri⟩ | ⟨uri, huri, bound, ne, isPfx⟩
  · simp [writtenAttribute, eq, huri]
  · simp [writtenAttribute, eq, huri]
  · have bound' : ((Opening.ofElement inclusive scope written e).bindings written).uri?
        (attributePfx a) = some uri :=
      uri?_bindings (attributePfx_mem_utilized ha ne isPfx.1) bound
    simp [writtenAttribute, ne, isPfx.1, huri, bound']

/-- The start tag of a consistent element says what the element is. -/
theorem ofOpening_ofElement (sound : Namespaces.Sound scope) (he : e.Sound)
    (consistent : e.Consistent scope) :
    ElementContent.ofOpening (Opening.ofElement inclusive scope written e)
      ((Opening.ofElement inclusive scope written e).bindings written) = .ofElement e := by
  have split : splitName e.name.qualified = (elementPfx e, e.name.localName) :=
    splitName_qualified he.pfx.colon_not_mem he.localName.colon_not_mem
  have mem : elementPfx e ∈ utilized inclusive e := elementPfx_mem_utilized he.pfx.1
  have uri : (((Opening.ofElement inclusive scope written e).bindings written).uri?
      (elementPfx e)).getD "" = e.name.uri.getD "" := by
    by_cases empty : elementPfx e = ""
    · rw [← consistent.unprefixed empty]
      rw [empty] at mem ⊢
      cases bound : scope.uri? "" with
      | none => exact default_bindings mem bound
      | some uri => rw [uri?_bindings mem bound]
    · obtain ⟨uri, huri, bound⟩ := consistent.prefixed empty he.pfx.1
      rw [uri?_bindings mem bound, huri]
  have attributes : (sortedAttributes e).map
      (readAttribute ((Opening.ofElement inclusive scope written e).bindings written)) =
        sortedAttributes e := by
    refine (List.map_congr_left (g := id) fun b hb => ?_).trans (List.map_id _)
    obtain ⟨a, ha, rfl⟩ := List.mem_map.1 (Sorting.mem_sort.1 hb)
    exact readAttribute_writtenAttribute sound he consistent ha
  simp only [ElementContent.ofOpening, ElementContent.ofElement]
  rw [show (Opening.ofElement inclusive scope written e).name = e.name.qualified from rfl, split,
    uri]
  exact congrArg _ attributes

end Reading

/-! ### Legible pieces -/

/-- Pieces that can be read back from their canonical form, in the given bindings. -/
inductive Legible : Scope → Forest (Piece Element) → Prop
  | nil {scope : Scope} : Legible scope .nil
  | element {scope : Scope} {e : Element} {inner next : Forest (Piece Element)} (sound : e.Sound)
    (consistent : e.Consistent (scope.declare e.declarations))
    (ordinary : ∀ a ∈ e.attributes, attributePfx a ≠ "xmlns")
    (hi : Legible (scope.declare e.declarations) inner) (hn : Legible scope next) :
    Legible scope (.node (.element e) inner next)
  | text {scope : Scope} {content : String} {next : Forest (Piece Element)}
    (hn : Legible scope next) : Legible scope (.node (.text content) .nil next)
  | comment {scope : Scope} {content : String} {next : Forest (Piece Element)}
    (unbroken : Unbroken ['-', '-', '>'] content.toList) (hn : Legible scope next) :
    Legible scope (.node (.comment content) .nil next)
  | instruction {scope : Scope} {target : String} {data : Option String}
    {next : Forest (Piece Element)} (sound : InstructionSound target data)
    (hn : Legible scope next) : Legible scope (.node (.instruction target data) .nil next)

/-- Every namespace is found in the declarations that were written. -/
theorem decode_render {scope : Scope} {f : Forest (Piece Element)} (hs : Namespaces.Sound scope)
    (hf : Legible scope f) (inclusive : List String) (written : Scope) :
    decode written (render inclusive scope written f) = f.map (Piece.map .ofElement) := by
  induction hf generalizing written with
  | nil => rfl
  | @element scope e inner next sound consistent ordinary _ _ ihInner ihNext =>
    have inside := hs.declare sound.declarations
    simp only [render, decode, Forest.map, Piece.map, ihInner inside, ihNext hs]
    rw [ofOpening_ofElement inside sound consistent]
  | text _ ih => simp only [render, decode, Forest.map, Piece.map, ih hs]
  | comment _ _ ih => simp only [render, decode, Forest.map, Piece.map, ih hs]
  | instruction _ _ ih => simp only [render, decode, Forest.map, Piece.map, ih hs]

end SamlSeal.Canonical

namespace SamlSeal.Xml.Document

open Canonical

variable {d : Document}

/-- The bindings in force in a sound document bind what can be bound. -/
theorem Sound.scope (hd : d.Sound) (linked : d.Linked) (id : NodeId) :
    Namespaces.Sound (d.scopeAround id) ∧ Namespaces.Sound (d.scopeAt id) :=
  scope_induction linked .nil
    (fun _ _ _ he around => around.declare (hd.element linked he).declarations) id

/-- A node is written when `apex` is, `excluded` left out: it lies below `apex`, and not below
`excluded` unless `apex` does so itself. -/
def Written (d : Document) (apex : NodeId) (excluded : Option NodeId) (x : NodeId) : Prop :=
  d.Below apex x ∧ ∀ s ∈ excluded, d.Below apex s → ¬ d.Below s x

/-- No attribute that is written has the prefix `xmlns`. -/
def OrdinaryBelow (d : Document) (apex : NodeId) (excluded : Option NodeId) : Prop :=
  ∀ x, d.Written apex excluded x → ∀ e, d.element? x = some e →
    ∀ a ∈ e.attributes, Canonical.attributePfx a ≠ "xmlns"

/-- To check a document as a whole is to check the rows of its table. -/
theorem consistentBelow_of_rows
    (h : ∀ x, x < d.size → ∀ e ∈ d.element? x, e.Consistent (d.scopeAt x)) (a : NodeId) :
    d.ConsistentBelow a :=
  fun x _ e he => h x (lt_size_of_element? he) e he

theorem ordinaryBelow_of_rows
    (h : ∀ x, x < d.size → ∀ e ∈ d.element? x, ∀ a ∈ e.attributes,
      Canonical.attributePfx a ≠ "xmlns") (apex : NodeId) (excluded : Option NodeId) :
    d.OrdinaryBelow apex excluded :=
  fun x _ e he => h x (lt_size_of_element? he) e he

/-- What is retained of some nodes below an element is legible. -/
theorem legible_retain (hd : d.Sound) (linked : d.Linked) {apex : NodeId}
    {excluded : Option NodeId} (consistent : d.ConsistentBelow apex)
    (ordinary : d.OrdinaryBelow apex excluded) (comments : Bool) {scope : Scope}
    {ids : List NodeId} {f : Forest (NodeId × Kind)} (hf : d.Shows ids f)
    (below : ∀ a ∈ ids, d.Below apex a ∧ a ≠ root ∧ d.scopeAround a = scope)
    (top : ∀ a ∈ ids, ∀ s ∈ excluded, d.Below apex s → d.Below s a → a = s) :
    Legible scope (retain excluded comments .inside f) := by
  induction hf generalizing scope with
  | nil => exact .nil
  | @node id kind ids inner next hk hi hn ihInner ihNext =>
    have next_legible := ihNext (fun a ha => below a (List.mem_cons_of_mem _ ha))
      fun a ha => top a (List.mem_cons_of_mem _ ha)
    obtain ⟨hid, notRoot, hscope⟩ := below id List.mem_cons_self
    rw [retain_node]
    by_cases ex : excluded = some id
    · rw [if_pos ex]
      exact next_legible
    rw [if_neg ex]
    have sound := hd id kind notRoot hk
    have written : d.Written apex excluded id := by
      refine ⟨hid, fun s hs hb hbi => ?_⟩
      exact ex (top id List.mem_cons_self s hs hb hbi ▸ hs)
    cases kind with
    | document => exact sound.elim
    | element e =>
      have he : d.element? id = some e := element?_of_kind? hk
      have inside : d.scopeAt id = scope.declare e.declarations := by
        rw [scopeAt_of_element linked he, hscope]
      refine .element sound (inside ▸ consistent id hid e he) (ordinary id written e he) ?_
        next_legible
      refine ihInner (fun c hc => ⟨hid.child linked hc, ?_, ?_⟩) fun c hc s hs hb hbc => ?_
      · exact linked.child_ne_root hc
      · rw [scopeAround_of_parent (linked.mem_children_iff.1 hc), inside]
      · exact (hbc.cases_child linked hc).resolve_right (written.2 s hs hb)
    | text content => exact .text next_legible
    | comment content =>
      cases comments with
      | false => exact next_legible
      | true => exact .comment sound next_legible
    | instruction target data => exact .instruction sound next_legible

end SamlSeal.Xml.Document
