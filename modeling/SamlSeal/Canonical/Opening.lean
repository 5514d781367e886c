import SamlSeal.Vocabulary
import SamlSeal.Xml.Writing

/-!
# Canonical start tags

In exclusive canonical form a start tag declares the namespaces that it *utilizes*: those of the
prefixes of its name and its attributes, and those of a list of prefixes that are always taken
along.  A binding is written only where the elements written around it do not already make it.

* `utilized`: the prefixes whose bindings matter at an element,
* `rendered`: the declarations written at an element,
* `Opening`: a start tag as it is written, with sorted declarations and attributes.
-/

namespace SamlSeal.Canonical

open Xml

/-! ### Attributes -/

/-- An attribute as it is written in canonical form. -/
structure WrittenAttribute where
  /-- The namespace, empty if there is none. -/
  uri : String
  localName : String
  /-- The name with its prefix. -/
  qualified : String
  value : String
  deriving DecidableEq, Repr

/-- Attributes are ordered by namespace and local name; those without namespace come first. -/
def WrittenAttribute.le (a b : WrittenAttribute) : Bool :=
  decide (a.uri < b.uri) || (a.uri == b.uri && decide (a.localName ≤ b.localName))

def WrittenAttribute.write (a : WrittenAttribute) : List Char :=
  writeAttribute a.qualified a.value

/-- The prefix that an attribute is written with; an attribute without namespace has none. -/
def attributePfx (a : Attribute) : String :=
  match a.name.uri with
  | none => ""
  | some uri => if uri = Namespace.xml then "xml" else a.name.pfx.getD ""

/-- How an attribute is written. -/
def writtenAttribute (a : Attribute) : WrittenAttribute where
  uri := a.name.uri.getD ""
  localName := a.name.localName
  qualified := QName.qualified { a.name with pfx := some (attributePfx a) }
  value := a.value

/-- The attributes of an element in canonical order. -/
def sortedAttributes (e : Element) : List WrittenAttribute :=
  Sorting.sort WrittenAttribute.le (e.attributes.map writtenAttribute)

/-! ### Declarations -/

/-- The list of prefixes that are always taken along; `#default` names the default namespace. -/
def inclusivePrefixes (names : List String) : List String :=
  names.map fun name => if name = "#default" then "" else name

/-- The prefix that an element is written with. -/
def elementPfx (e : Element) : String := e.name.pfx.getD ""

/-- The prefixes whose bindings matter at an element, each once.  The prefix `xml` needs no
binding. -/
def utilized (inclusive : List String) (e : Element) : List String :=
  (elementPfx e :: (e.attributes.map attributePfx).filter (· != "") ++ inclusive).eraseDups.filter
    (· != "xml")

/-- The declaration of one prefix at an element, if it is needed.  `scope` is what the prefix
means there, `written` what the tags written around it say.  When the default namespace ended, that
has to be written. -/
def declaration? (scope written : Scope) (p : String) : Option Declaration :=
  match scope.uri? p with
  | some uri => if written.uri? p = some uri then none else some ⟨p, uri⟩
  | none => if p = "" ∧ (written.uri? "").any (· != "") then some ⟨"", ""⟩ else none

/-- The declarations that are written at an element, in order. -/
def rendered (inclusive : List String) (scope written : Scope) (e : Element) :
    List Declaration :=
  Sorting.sort Declaration.le ((utilized inclusive e).filterMap (declaration? scope written))

/-! ### Start tags -/

/-- Declarations and attributes as they stand in a start tag, in the given order. -/
def writeLists (ds : List Declaration) (attrs : List WrittenAttribute) : List Char :=
  ds.flatMap Declaration.write ++ attrs.flatMap WrittenAttribute.write

/-- Declarations and attributes in any order, written in canonical order. -/
def writeSorted (ds : List Declaration) (attrs : List WrittenAttribute) : List Char :=
  writeLists (Sorting.sort Declaration.le ds) (Sorting.sort WrittenAttribute.le attrs)

/-- A start tag. -/
structure Opening where
  /-- The name with its prefix. -/
  name : String
  declarations : List Declaration
  attributes : List WrittenAttribute
  deriving DecidableEq, Repr

namespace Opening

/-- The start tag of an element, given the bindings in force inside it and those that the tags
around it make. -/
def ofElement (inclusive : List String) (scope written : Scope) (e : Element) : Opening :=
  ⟨e.name.qualified, rendered inclusive scope written e, sortedAttributes e⟩

/-- The bindings that the tags around an element and its own tag make. -/
def bindings (o : Opening) (written : Scope) : Scope := o.declarations.foldl Scope.bind written

/-- A start tag as text. -/
def write (o : Opening) : List Char :=
  '<' :: o.name.toList ++ writeLists o.declarations o.attributes ++ ['>']

/-- The end tag that belongs to a start tag. -/
def writeEnd (o : Opening) : List Char := ['<', '/'] ++ o.name.toList ++ ['>']

end Opening

end SamlSeal.Canonical
