import SamlSeal.Canonical.Opening

/-!
# Canonical form

The canonical form of a node is made in three steps.

* `retain` selects what is written: not the excluded node and what is below it, comments only on
  demand, and outside the document element no text but the line breaks that set comments and
  processing instructions off.
* `render` gives every element its start tag, and on the way keeps track of the bindings in force
  and of those already written.
* `write` writes the tags and what is between them.

`Document.canonical` joins them for a node of a document.
-/

namespace SamlSeal.Canonical

open Xml

/-- What is written of a node; `ε` is what is known of an element. -/
inductive Piece (ε : Type) where
  | element (e : ε)
  | text (content : String)
  | comment (content : String)
  | instruction (target : String) (data : Option String)
  /-- A line break between the document element and what stands outside it. -/
  | lineBreak
  deriving DecidableEq, Repr

/-! ### Selecting nodes -/

/-- Where some sibling nodes stand. -/
inductive Place where
  /-- Not directly below a document node. -/
  | inside
  /-- Directly below a document node, with elements before them or after them or not. -/
  | outside (before after : Bool)
  deriving DecidableEq, Repr

/-- Whether there is an element among the siblings of a forest. -/
def hasElement (f : Forest (NodeId × Kind)) : Bool := f.roots.any (·.2.isElement)

/-- A comment or a processing instruction, with the line breaks that its place asks for. -/
def framed (place : Place) (piece : Piece Element) (siblings : Forest (NodeId × Kind))
    (rest : Forest (Piece Element)) : Forest (Piece Element) :=
  match place with
  | .inside => .node piece .nil rest
  | .outside before after =>
    let rest := if hasElement siblings || after then .node .lineBreak .nil rest else rest
    let rest := .node piece .nil rest
    if before then .node .lineBreak .nil rest else rest

/-- The place of the siblings after a node of the given kind. -/
def Place.next (place : Place) (kind : Kind) : Place :=
  match place with
  | .inside => .inside
  | .outside before after => .outside (before || kind.isElement) after

/-- The pieces to be written of some nodes.  A document node counts as its content. -/
def retain (excluded : Option NodeId) (comments : Bool) (place : Place) :
    Forest (NodeId × Kind) → Forest (Piece Element)
  | .nil => .nil
  | .node (id, kind) inner next =>
    let rest := retain excluded comments (place.next kind) next
    if excluded = some id then rest
    else match kind with
      | .document => retain excluded comments (.outside false false) inner ++ rest
      | .element e => .node (.element e) (retain excluded comments .inside inner) rest
      | .text content => if place = .inside then .node (.text content) .nil rest else rest
      | .comment content => if comments then framed place (.comment content) next rest else rest
      | .instruction target data => framed place (.instruction target data) next rest

/-! ### Start tags -/

/-- Gives every element its start tag.  `scope` holds the bindings in force around the pieces,
`written` those that the start tags around them make. -/
def render (inclusive : List String) (scope written : Scope) :
    Forest (Piece Element) → Forest (Piece Opening)
  | .nil => .nil
  | .node piece inner next =>
    let next := render inclusive scope written next
    match piece with
    | .element e =>
      let inside := scope.declare e.declarations
      let o := Opening.ofElement inclusive inside written e
      .node (.element o) (render inclusive inside (o.bindings written) inner) next
    | .text content => .node (.text content) .nil next
    | .comment content => .node (.comment content) .nil next
    | .instruction target data => .node (.instruction target data) .nil next
    | .lineBreak => .node .lineBreak .nil next

/-! ### Text -/

/-- The data of a processing instruction, set off by a space unless empty. -/
def writeData : Option String → List Char
  | none => []
  | some data => if data = "" then [] else ' ' :: Escape.instruction data.toList

/-- Tags and what is between them, as text.  Every element has an end tag. -/
def write : Forest (Piece Opening) → List Char
  | .nil => []
  | .node piece inner next =>
    (match piece with
      | .element o => o.write ++ write inner ++ o.writeEnd
      | .text content => Escape.text content.toList
      | .comment content => ['<', '!', '-', '-'] ++ content.toList ++ ['-', '-', '>']
      | .instruction target data => ['<', '?'] ++ target.toList ++ writeData data ++ ['?', '>']
      | .lineBreak => ['\n']) ++
    write next

end SamlSeal.Canonical

namespace SamlSeal.Xml.Document

open Canonical

/-- Whether a node is the kind of node that stands for a document. -/
def isDocument (d : Document) (id : NodeId) : Bool := d.kind? id == some .document

/-- Where a node stands that is to be written by itself.  Only comments and processing instructions
look at their siblings. -/
def place (d : Document) (id : NodeId) : Place :=
  match d.kind? id, d.parent? id with
  | some (.comment _), some p | some (.instruction ..), some p =>
    if d.isDocument p then
      .outside (((d.children p).takeWhile (· != id)).any d.isElement)
        ((((d.children p).dropWhile (· != id)).drop 1).any d.isElement)
    else .inside
  | _, _ => .inside

/-- The bindings in force around a node. -/
def scopeAround (d : Document) (id : NodeId) : Scope :=
  match d.parent? id with
  | some p => d.scopeAt p
  | none => []

/-- The pieces to be written of a node and what is below it. -/
def retained (d : Document) (apex : NodeId) (excluded : Option NodeId) (comments : Bool) :
    Forest (Piece Element) :=
  retain excluded comments (d.place apex) (d.view [apex])

/-- The tags that are written of a node and what is below it. -/
def rendered (d : Document) (apex : NodeId) (excluded : Option NodeId) (comments : Bool)
    (inclusive : List String) : Forest (Piece Opening) :=
  render (inclusivePrefixes inclusive) (d.scopeAround apex) [] (d.retained apex excluded comments)

/-- The canonical form of a node and what is below it, except for what is below `excluded`.
`inclusive` lists the prefixes whose bindings are always taken along. -/
def canonical (d : Document) (apex : NodeId) (excluded : Option NodeId) (comments : Bool)
    (inclusive : List String) : Except Fault String :=
  if (d.kind? apex).isSome then
    .ok (String.ofList (Canonical.write (d.rendered apex excluded comments inclusive)))
  else .error (.unknownNode apex)

end SamlSeal.Xml.Document
