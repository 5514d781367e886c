import SamlSeal.Canonical.Form
import SamlSeal.Encoding.Base64
import SamlSeal.Key.Basic
import SamlSeal.Signature.Reference
import SamlSeal.Signature.Trace

/-!
# Reference digests

The digest in a reference is the hash, in base64, of the canonical form of the signed element
without the signature itself.  `verifyDigest` compares it, `produceDigest` puts it in.
-/

namespace SamlSeal

open Xml

/-- The key to verify or sign with, and whether canonical forms are reported. -/
structure Context where
  key : Key
  debug : Bool

/-- The bytes of a text. -/
def utf8 (s : String) : Bytes := s.toUTF8.data.toList

namespace Site

/-- The canonical form of the signed element, without the signature. -/
def signedForm (d : Document) (site : Site) (t : Reference.Transforms) : Except Fault String :=
  d.canonical site.parent (some site.signature) t.mode.keepsComments t.inclusive

/-- The digest of the signed element, if the reference follows the profile. -/
def computeDigest (ctx : Context) (d : Document) (site : Site) : Traced String := do
  Reference.checkLinkage d site
  let t ← Reference.transforms d site.reference
  let uri ← d.algorithmOf site.reference ElementName.digestMethod
  let method ← DigestMethod.ofUri uri
  let form ← site.signedForm d t
  Traced.logIf ctx.debug (.preDigest site.kind form)
  pure (String.ofList (Base64.encode (method.hash (utf8 form))))

/-- Whether the digest in the reference is that of the signed element. -/
def verifyDigest (ctx : Context) (d : Document) (site : Site) : Traced Bool := do
  let computed ← site.computeDigest ctx d
  let value ← d.requiredChild site.reference ElementName.digestValue
  let expected := String.ofList (d.unwrapped value)
  Traced.log (.referenceDigest site.kind computed expected)
  Traced.logIf (computed != expected) (.digestMismatch site.kind)
  pure (computed == expected)

/-- Puts the digest of the signed element into the reference. -/
def produceDigest (ctx : Context) (d : Document) (site : Site) : Traced Document := do
  let computed ← site.computeDigest ctx d
  let value ← d.requiredChild site.reference ElementName.digestValue
  Traced.log (.producedDigest site.kind computed)
  d.setText value computed

end Site

end SamlSeal
