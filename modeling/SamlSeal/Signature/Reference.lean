import SamlSeal.Canonical.Mode
import SamlSeal.Signature.Site
import SamlSeal.Text.Blank

/-!
# References

What the profile asks of the reference in a signature: it names the element that holds the
signature (`checkLinkage`), and it has two transforms, which leave the signature out and bring the
rest into canonical form (`transforms`).
-/

namespace SamlSeal.Reference

open Xml

/-- How the transforms of a reference want the signed element to be written. -/
structure Transforms where
  mode : Mode
  /-- The prefixes that are always taken along, if there is a list of them. -/
  prefixes : Option (List String)
  deriving DecidableEq, Repr

/-- The prefixes that are always taken along. -/
def Transforms.inclusive (t : Transforms) : List String := t.prefixes.getD []

/-- A reference has to consist of `#` and the identifier of the signed element, which must not be
empty. -/
def checkLinkage (d : Document) (site : Site) : Except Fault Unit :=
  let uri := (d.attribute? site.reference AttributeName.uri).getD ""
  let id := (d.attribute? site.parent AttributeName.id).getD ""
  if id = "" ∨ uri ≠ "#" ++ id then .error (.unlinkedReference uri id) else .ok ()

/-- The algorithm of a transform. -/
def transformAlgorithm (d : Document) (transform : NodeId) : Except Fault String :=
  match d.attribute? transform AttributeName.algorithm with
  | some uri => .ok uri
  | none => .error (.missingAlgorithm ElementName.transform)

/-- The two transforms of a reference. -/
def transformPair (d : Document) (reference : NodeId) : Except Fault (NodeId × NodeId) :=
  match d.childElement? reference Namespace.dsig ElementName.transforms with
  | none => .error .noTransforms
  | some list =>
    match d.childElements list Namespace.dsig ElementName.transform with
    | [first, second] => .ok (first, second)
    | ts => .error (.transformCount ts.length)

/-- The list of prefixes in a transform: the words of the first element of that name, whatever its
namespace. -/
def prefixes (d : Document) (transform : NodeId) : Option (List String) :=
  (d.childNamed? transform ElementName.inclusiveNamespaces).map fun list =>
    (Text.words ((d.attribute? list AttributeName.prefixList).getD "").toList).map String.ofList

/-- The transforms of a reference, which have to be those of the profile. -/
def transforms (d : Document) (reference : NodeId) : Except Fault Transforms := do
  let (first, second) ← transformPair d reference
  let uri ← transformAlgorithm d first
  if uri ≠ Algorithm.enveloped then .error (.unexpectedTransform uri)
  else
    let uri ← transformAlgorithm d second
    match Mode.ofUri? uri with
    | some mode => .ok ⟨mode, prefixes d second⟩
    | none => .error (.unexpectedTransform uri)

end SamlSeal.Reference
