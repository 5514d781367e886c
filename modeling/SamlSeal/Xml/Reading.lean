import SamlSeal.Vocabulary
import SamlSeal.Xml.Document
import SamlSeal.Xml.Markup
import SamlSeal.Xml.StartTag

/-!
# Reading documents

`Document.parse?` turns text into a document: the markup is read, then every name is resolved in
the namespaces around it (`Markup.resolve?`), and the resolved tree becomes a table.

An element keeps the prefixes that stand in its start tag, which are found by `StartTag.scan`, and
the declarations that change the bindings in force around it.
-/

namespace SamlSeal.Xml

/-! ### Declarations -/

/-- The bindings inside an element: those that it makes itself in the order of its start tag, then
those around it.  Names are resolved in the first binding of their prefix. -/
abbrev Namespaces := List Declaration

namespace Tag

/-- Whether a name in attribute position declares a namespace.  The local name `xmlns` does, also
with a prefix in front. -/
def declares (name : WrittenName) : Bool := name.pfx == "xmlns" || name.localName == "xmlns"

/-- The declaration that a name and a value in attribute position make.  The prefix `xml` and its
namespace belong together, and declaring them declares nothing. -/
def declaration? (name : WrittenName) (value : String) : Option (Option Declaration) :=
  if value = Namespace.xmlns then none
  else if name.pfx = "xmlns" then
    if name.localName = "xml" then if value = Namespace.xml then some none else none
    else if value = Namespace.xml then none
    else some (some ⟨name.localName, value⟩)
  else if value = Namespace.xml then none
  else some (some ⟨"", value⟩)

/-- The declarations of a start tag in order.  No prefix is declared twice; only the default
namespace may be. -/
def declarations? (attributes : List (WrittenName × String)) : Option Namespaces := do
  let made ← (attributes.filter fun a => declares a.1).mapM fun a => declaration? a.1 a.2
  let own := made.filterMap id
  if ((own.filter (·.pfx != "")).map (·.pfx)).Nodup then some own else none

end Tag

namespace Namespaces

/-- The bindings inside an element: its own declarations, then those around it that it does not
make anew. -/
def extend (around own : Namespaces) : Namespaces :=
  if own.isEmpty then around
  else around.foldl (fun ns d => if ns.any (·.pfx == d.pfx) then ns else ns ++ [d]) own

/-- The first binding of a prefix. -/
def find? (ns : Namespaces) (p : String) : Option String := Scope.uri? ns p

/-- The bindings as a scope: empty namespaces are no bindings, and of two bindings of one prefix
the later one counts. -/
def toScope (ns : Namespaces) : Scope :=
  (ns.filter (·.uri != "")).foldl Scope.bind []

end Namespaces

/-- The declarations that turn the bindings around an element into those inside it, in the order
of the prefixes.  Taking the default namespace away comes last. -/
def Scope.changes (around inside : Scope) : List Declaration :=
  inside.sorted.filter (fun d => around.uri? d.pfx != some d.uri) ++
    if (around.uri? "").isSome && (inside.uri? "").isNone then [⟨"", ""⟩] else []

/-- The first prefix, in order, that is bound to a namespace. -/
def Scope.pfxOf? (s : Scope) (uri : String) : Option String :=
  (s.sorted.find? fun d => d.pfx != "" && d.uri == uri).map (·.pfx)

/-! ### Names -/

/-- What stands in front of the first colon of a name, if there is a colon. -/
def writtenPfx? (name : String) : Option String :=
  match name.toList.span (· != ':') with
  | (_, []) => none
  | (front, _) => some (String.ofList front)

/-- The namespace of an element's name: a prefix has to be bound, and no prefix takes the default
namespace. -/
def elementUri? (ns : Namespaces) (name : WrittenName) : Option (Option String) :=
  if name.pfx = "xmlns" then none
  else match ns.find? name.pfx with
    | some uri => some (some uri)
    | none => if name.pfx = "" then some none else none

/-- The namespace of an attribute's name: without prefix it has none. -/
def attributeUri? (ns : Namespaces) (name : WrittenName) : Option (Option String) :=
  if name.pfx = "" then some none
  else if name.pfx = "xml" then some (some Namespace.xml)
  else (ns.find? name.pfx).map some

/-- The prefix of an attribute, given the name at its place in the start tag if that is known. -/
def attributePfx (scope : Scope) (written : Option String) : Option String → Option String
  | none => none
  | some uri =>
    if uri = Namespace.xml then some "xml"
    else (written.bind writtenPfx?).or (scope.pfxOf? uri)

/-- The attributes of a start tag, declarations left out, with their names resolved.  `written` are
the names found in the tag; they are used only if there are as many as attributes. -/
def resolveAttributes? (ns : Namespaces) (scope : Scope) (written : List String)
    (attributes : List (WrittenName × String)) : Option (List Attribute) := do
  let uris ← attributes.mapM fun a => attributeUri? ns a.1
  if (List.zip uris (attributes.map (·.1.localName))).Nodup then
    let places := if written.length = attributes.length then written.map some
      else attributes.map fun _ => none
    some <| (List.zip attributes (List.zip uris places)).map fun (a, uri, place) =>
      ⟨⟨attributePfx scope place uri, a.1.localName, uri⟩, a.2⟩
  else none

/-! ### Trees -/

namespace Markup

/-- Resolves the names of some markup, given the namespaces and the bindings around it. -/
def resolve? (around : Namespaces) (outer : Scope) : Markup → Option (Forest Kind)
  | .nil => some .nil
  | .node item inner next => do
    let next ← resolve? around outer next
    match item with
    | .text content => some (.node (.text content) .nil next)
    | .comment content => some (.node (.comment content) .nil next)
    | .instruction target data => some (.node (.instruction target data) .nil next)
    | .element source tag =>
      let ns := Namespaces.extend around (← Tag.declarations? tag.attributes)
      let scope := ns.toScope
      let uri ← elementUri? ns tag.name
      let written ← StartTag.scan source
      let attributes ← resolveAttributes? ns scope written.attributes
        (tag.attributes.filter fun a => !Tag.declares a.1)
      let name := ⟨writtenPfx? written.name, tag.name.localName, uri⟩
      let inner ← resolve? ns scope inner
      some (.node (.element ⟨name, attributes, outer.changes scope⟩) inner next)

end Markup

namespace Document

/-- Reads a document. -/
def parse? (text : String) : Option Document :=
  (Markup.read? text.toList).bind fun m => (m.resolve? [] []).map ofForest

/-- Reads a document, with the fault if there is none. -/
def parse (text : String) : Except Fault Document :=
  match parse? text with
  | some d => .ok d
  | none => .error .malformedXml

/-- Reads a document from its bytes. -/
def parseBytes (bytes : List UInt8) : Except Fault Document :=
  match String.fromUTF8? ⟨bytes.toArray⟩ with
  | some text => parse text
  | none => .error .xmlNotUtf8

end Document

end SamlSeal.Xml
