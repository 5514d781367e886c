import SamlSeal.Text.Escape
import SamlSeal.Xml.Document

/-!
# Writing documents

`Document.toXml` writes a document as text, `Document.write` a node with everything below it.
Elements without content are closed at once, and namespace declarations come before attributes.
-/

namespace SamlSeal.Xml

/-- A namespace declaration as it stands in a start tag, with a space in front. -/
def Declaration.write (d : Declaration) : List Char :=
  (if d.pfx = "" then [' ', 'x', 'm', 'l', 'n', 's', '=', '"']
    else [' ', 'x', 'm', 'l', 'n', 's', ':'] ++ d.pfx.toList ++ ['=', '"']) ++
  Escape.value d.uri.toList ++ ['"']

/-- A name and a value as they stand in a start tag, with a space in front. -/
def writeAttribute (name value : String) : List Char :=
  ' ' :: name.toList ++ ['=', '"'] ++ Escape.value value.toList ++ ['"']

def Attribute.write (a : Attribute) : List Char := writeAttribute a.name.qualified a.value

/-- The data of a processing instruction, set off by a space unless empty. -/
def writeData : Option String → List Char
  | none => []
  | some data => if data = "" then [] else ' ' :: data.toList

/-- A start tag without its closing bracket. -/
def Element.writeOpening (e : Element) : List Char :=
  '<' :: e.name.qualified.toList ++ e.declarations.flatMap Declaration.write ++
    e.attributes.flatMap Attribute.write

namespace Forest

/-- Nodes as text. -/
def write : Forest (NodeId × Kind) → List Char
  | .nil => []
  | .node (_, kind) inner next =>
    (match kind with
      | .document => inner.write
      | .element e =>
        e.writeOpening ++
          match inner with
          | .nil => ['/', '>']
          | inner => '>' :: inner.write ++ ['<', '/'] ++ e.name.qualified.toList ++ ['>']
      | .text content => Escape.text content.toList
      | .comment content => ['<', '!', '-', '-'] ++ content.toList ++ ['-', '-', '>']
      | .instruction target data => ['<', '?'] ++ target.toList ++ writeData data ++ ['?', '>']) ++
    next.write

end Forest

namespace Document

/-- A node with everything below it, as text. -/
def write (d : Document) (id : NodeId) : String := String.ofList (d.view [id]).write

/-- The whole document as text. -/
def toXml (d : Document) : String := String.ofList (d.view (d.children root)).write

end Document

end SamlSeal.Xml
