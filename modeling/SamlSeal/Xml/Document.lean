import SamlSeal.Fault
import SamlSeal.Xml.Forest
import SamlSeal.Xml.Name
import SamlSeal.Xml.Namespace

/-!
# Documents

A `Document` is a table of nodes that refer to each other by their positions in it.  Node 0 stands
for the document itself.  Nodes are only ever added at the end; a node that is taken out of the
tree keeps its position and is no longer reached from node 0.

* `Document.kind?`, `parent?`, `children`: what the table says about a node,
* `Document.attribute?`, `childElements`, `text`, …: the questions that the signature profile asks,
* `Document.appendChild`, `setAttribute`, `setText`: the changes that building and signing make,
* `Document.view`: the nodes below some nodes, as a forest.

A position outside the table is a node without kind, parent and children.
-/

namespace SamlSeal.Xml

/-- The position of a node in its document. -/
abbrev NodeId := Nat

/-- An attribute that is not a namespace declaration. -/
structure Attribute where
  name : QName
  value : String
  deriving DecidableEq, Repr

/-- Whether an attribute has the given local name and no namespace. -/
def Attribute.isPlain (name : String) (a : Attribute) : Bool :=
  a.name.uri.isNone && a.name.localName == name

/-- An element without its content. -/
structure Element where
  name : QName
  /-- The attributes in the order in which they are written. -/
  attributes : List Attribute
  /-- The declarations that tell the bindings in force here from those around the element. -/
  declarations : List Declaration
  deriving DecidableEq, Repr

/-- Gives the first attribute of the given name and no namespace a value.  If there is none, it is
added after the others. -/
def Attribute.set (name value : String) : List Attribute → List Attribute
  | [] => [⟨QName.plain name, value⟩]
  | a :: as =>
    if a.isPlain name then { a with value } :: as else a :: Attribute.set name value as

def Element.setAttribute (e : Element) (name value : String) : Element :=
  { e with attributes := Attribute.set name value e.attributes }

/-- What a node is. -/
inductive Kind where
  | document
  | element (e : Element)
  | text (content : String)
  | comment (content : String)
  | instruction (target : String) (data : Option String)
  deriving DecidableEq, Repr

namespace Kind

/-- The element that a node is, if it is one. -/
def element? : Kind → Option Element
  | element e => some e
  | _ => none

def isElement : Kind → Bool
  | element _ => true
  | _ => false

end Kind

/-- A row of the table. -/
structure Node where
  kind : Kind
  parent : Option NodeId
  children : List NodeId
  deriving DecidableEq, Repr

/-- A table of nodes. -/
structure Document where
  nodes : Array Node
  deriving DecidableEq, Repr

namespace Document

/-- The document without content. -/
def empty : Document := ⟨#[⟨.document, none, []⟩]⟩

/-- The node that stands for the document itself. -/
def root : NodeId := 0

/-- The number of nodes, which is the position of the next node to be added. -/
def size (d : Document) : Nat := d.nodes.size

/-! ### Looking up nodes -/

def node? (d : Document) (id : NodeId) : Option Node := d.nodes[id]?

def kind? (d : Document) (id : NodeId) : Option Kind := (d.node? id).map (·.kind)

def parent? (d : Document) (id : NodeId) : Option NodeId := (d.node? id).bind (·.parent)

def children (d : Document) (id : NodeId) : List NodeId :=
  match d.node? id with
  | some n => n.children
  | none => []

/-- The element at a position, if there is one. -/
def element? (d : Document) (id : NodeId) : Option Element := (d.kind? id).bind Kind.element?

def isElement (d : Document) (id : NodeId) : Bool := (d.element? id).isSome

/-- The document element: the first element directly below node 0. -/
def rootElement? (d : Document) : Option NodeId := (d.children root).find? d.isElement

/-- Whether a node is an element of the given namespace and local name.  No namespace and the
empty one are the same here. -/
def isNamed (d : Document) (uri localName : String) (id : NodeId) : Bool :=
  match d.element? id with
  | some e => e.name.localName == localName && e.name.uri.getD "" == uri
  | none => false

/-- The children with the given namespace and local name. -/
def childElements (d : Document) (id : NodeId) (uri localName : String) : List NodeId :=
  (d.children id).filter (d.isNamed uri localName)

/-- The first child with the given namespace and local name. -/
def childElement? (d : Document) (id : NodeId) (uri localName : String) : Option NodeId :=
  (d.children id).find? (d.isNamed uri localName)

/-- The first child with the given local name, in whatever namespace. -/
def childNamed? (d : Document) (id : NodeId) (localName : String) : Option NodeId :=
  (d.children id).find? fun c =>
    match d.element? c with
    | some e => e.name.localName == localName
    | none => false

/-- The value of an element's attribute that has the given name and no namespace. -/
def attribute? (d : Document) (id : NodeId) (name : String) : Option String :=
  (d.element? id).bind fun e => (e.attributes.find? (Attribute.isPlain name)).map (·.value)

/-- The text directly inside a node, not that of nodes deeper down. -/
def text (d : Document) (id : NodeId) : String :=
  String.ofList <| (d.children id).flatMap fun c =>
    match d.kind? c with
    | some (.text s) => s.toList
    | _ => []

/-! ### Bindings in force -/

/-- A node, its parent, the parent of that, and so on upwards. -/
def lineage (d : Document) (id : NodeId) : List NodeId :=
  go d.size id
where
  /-- At most `n` nodes; a document without cycles has no longer lineage than nodes. -/
  go : Nat → NodeId → List NodeId
    | 0, _ => []
    | n + 1, id =>
      id :: match d.parent? id with
        | some p => go n p
        | none => []

/-- The namespace bindings in force at a node: the declarations of the elements of its lineage,
from the outermost to its own. -/
def scopeAt (d : Document) (id : NodeId) : Scope :=
  (d.lineage id).foldr (fun a s =>
    match d.element? a with
    | some e => s.declare e.declarations
    | none => s) []

/-! ### The tree below a node -/

/-- The given nodes with everything below them, each with its position.  Positions outside the
table are left out. -/
def view (d : Document) (ids : List NodeId) : Forest (NodeId × Kind) :=
  go d.size ids
where
  /-- At most `n` levels; a document without cycles has no more levels than nodes. -/
  go : Nat → List NodeId → Forest (NodeId × Kind)
    | 0, _ => .nil
    | n + 1, ids =>
      ids.foldr (fun id next =>
        match d.kind? id with
        | some k => .node (id, k) (go n (d.children id)) next
        | none => next) .nil

/-! ### Changes -/

/-- Adds a node at the end of the table, as the last child of `parent`. -/
def appendChild (d : Document) (parent : NodeId) (kind : Kind) : Document :=
  ⟨(d.nodes.push ⟨kind, some parent, []⟩).modify parent fun n =>
    { n with children := n.children ++ [d.size] }⟩

@[simp] theorem size_appendChild (d : Document) (parent : NodeId) (kind : Kind) :
    (d.appendChild parent kind).size = d.size + 1 := by
  simp [appendChild, size]

/-- A node that was there before stays as it is, but for the new child of the parent. -/
theorem node?_appendChild {d : Document} {id : NodeId} (h : id < d.size) (parent : NodeId)
    (kind : Kind) : (d.appendChild parent kind).node? id =
      if parent = id then (d.node? id).map fun n => { n with children := n.children ++ [d.size] }
      else d.node? id := by
  have old : (d.nodes.push ⟨kind, some parent, []⟩)[id]? = d.nodes[id]? := by
    rw [Array.getElem?_push, if_neg (show id ≠ d.nodes.size from Nat.ne_of_lt h)]
  simp only [node?, appendChild, Array.getElem?_modify, old]

theorem kind?_appendChild {d : Document} {id : NodeId} (h : id < d.size) (parent : NodeId)
    (kind : Kind) : (d.appendChild parent kind).kind? id = d.kind? id := by
  rw [kind?, kind?, node?_appendChild h]
  split <;> simp [Option.map_map, Function.comp_def]

theorem parent?_appendChild {d : Document} {id : NodeId} (h : id < d.size) (parent : NodeId)
    (kind : Kind) : (d.appendChild parent kind).parent? id = d.parent? id := by
  rw [parent?, parent?, node?_appendChild h]
  split <;> cases d.node? id <;> rfl

/-- Adds a whole forest below `parent`, node by node in the order in which it is written. -/
def graft (d : Document) (parent : NodeId) : Forest Kind → Document
  | .nil => d
  | .node kind inner next => ((d.appendChild parent kind).graft d.size inner).graft parent next

theorem size_graft (d : Document) (parent : NodeId) (f : Forest Kind) :
    (d.graft parent f).size = d.size + f.labels.length := by
  induction f generalizing d parent with
  | nil => rfl
  | node kind inner next ihInner ihNext =>
    rw [graft, ihNext, ihInner, size_appendChild, Forest.labels, List.length_cons,
      List.length_append]
    omega

/-- The document with the given content. -/
def ofForest (f : Forest Kind) : Document := empty.graft root f

/-- Puts another element in place of the one at a position. -/
def replaceElement (d : Document) (id : NodeId) (e : Element) : Document :=
  ⟨d.nodes.modify id fun n => { n with kind := .element e }⟩

theorem node?_replaceElement (d : Document) (id other : NodeId) (e : Element) :
    (d.replaceElement id e).node? other =
      if id = other then (d.node? other).map fun n => { n with kind := .element e }
      else d.node? other := by
  simp only [node?, replaceElement, Array.getElem?_modify]

theorem parent?_replaceElement (d : Document) (id other : NodeId) (e : Element) :
    (d.replaceElement id e).parent? other = d.parent? other := by
  rw [parent?, parent?, node?_replaceElement]
  split <;> cases d.node? other <;> rfl

theorem children_replaceElement (d : Document) (id other : NodeId) (e : Element) :
    (d.replaceElement id e).children other = d.children other := by
  rw [children, children, node?_replaceElement]
  by_cases same : id = other
  · rw [if_pos same]
    cases d.node? other <;> rfl
  · rw [if_neg same]

/-- Gives an attribute of an element a value. -/
def setAttribute (d : Document) (id : NodeId) (name value : String) : Except Fault Document :=
  match d.element? id with
  | some e => .ok (d.replaceElement id (e.setAttribute name value))
  | none => .error (.notAnElement id)

/-- Takes all children out of a node. -/
def detachChildren (d : Document) (id : NodeId) : Document :=
  let cleared := d.nodes.modify id fun n => { n with children := [] }
  ⟨(d.children id).foldl (fun ns c => ns.modify c fun n => { n with parent := none }) cleared⟩

/-- Makes a text the only content of an element.  The empty text leaves it without content. -/
def setText (d : Document) (id : NodeId) (content : String) : Except Fault Document :=
  match d.element? id with
  | some _ =>
    let emptied := d.detachChildren id
    .ok (if content = "" then emptied else emptied.appendChild id (.text content))
  | none => .error (.notAnElement id)

end Document

end SamlSeal.Xml
