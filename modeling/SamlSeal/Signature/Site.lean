import SamlSeal.Vocabulary
import SamlSeal.Xml.Document

/-!
# Signature sites

A site is a signature together with the element that holds it, which is the element it signs.  A
message has at most two sites that count: the signature of the message, in the document element, and
the signature of its assertion.  `Site.locate` finds the parts of a signature that the profile asks
for.
-/

namespace SamlSeal

open Xml

/-- Which signature of a message is meant. -/
inductive SiteKind where
  | assertion
  | root
  deriving DecidableEq, Repr

def SiteKind.name : SiteKind → String
  | assertion => "assertion"
  | root => "root"

/-- A signature and its parts. -/
structure Site where
  kind : SiteKind
  signature : NodeId
  /-- The signed element. -/
  parent : NodeId
  signedInfo : NodeId
  /-- The only reference of the signed information. -/
  reference : NodeId
  signatureValue : NodeId
  deriving DecidableEq, Repr

end SamlSeal

namespace SamlSeal.Xml.Document

/-- The first child of the given name in the signature namespace. -/
def requiredChild (d : Document) (id : NodeId) (name : String) : Except Fault NodeId :=
  match d.childElement? id Namespace.dsig name with
  | some c => .ok c
  | none => .error (.missingElement name)

/-- The algorithm that the child of the given name names. -/
def algorithmOf (d : Document) (id : NodeId) (name : String) : Except Fault String := do
  let c ← d.requiredChild id name
  match d.attribute? c AttributeName.algorithm with
  | some uri => .ok uri
  | none => .error (.missingAlgorithm name)

/-- The text directly inside a node without its white space, as base64 may be wrapped. -/
def unwrapped (d : Document) (id : NodeId) : List Char :=
  (d.text id).toList.filter (!isSpace ·)

/-- The signature of the message: the first one directly inside the document element. -/
def rootSignature (d : Document) : Except Fault (Option NodeId) :=
  match d.rootElement? with
  | some root => .ok (d.childElement? root Namespace.dsig ElementName.signature)
  | none => .error .noRootElement

/-- The signature of the assertion: the first one directly inside the first assertion of the
document element. -/
def assertionSignature? (d : Document) : Option NodeId := do
  let root ← d.rootElement?
  let assertion ← d.childElement? root Namespace.samlAssertion ElementName.assertion
  d.childElement? assertion Namespace.dsig ElementName.signature

end SamlSeal.Xml.Document

namespace SamlSeal.Site

open Xml

/-- The element that holds a signature. -/
def holder (d : Document) (signature : NodeId) : Except Fault NodeId :=
  match d.parent? signature with
  | some p => if d.isElement p then .ok p else .error .orphanSignature
  | none => .error .orphanSignature

/-- The only reference of some signed information. -/
def onlyReference (d : Document) (signedInfo : NodeId) : Except Fault NodeId :=
  match d.childElements signedInfo Namespace.dsig ElementName.reference with
  | [] => .error (.missingElement ElementName.reference)
  | [r] => .ok r
  | rs => .error (.referenceCount rs.length)

/-- Finds the parts of a signature. -/
def locate (d : Document) (signature : NodeId) (kind : SiteKind) : Except Fault Site := do
  let parent ← holder d signature
  let signedInfo ← d.requiredChild signature ElementName.signedInfo
  let reference ← onlyReference d signedInfo
  let signatureValue ← d.requiredChild signature ElementName.signatureValue
  .ok ⟨kind, signature, parent, signedInfo, reference, signatureValue⟩

end SamlSeal.Site
