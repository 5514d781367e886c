import SamlSeal.Signature.Digest

/-!
# Signature values

The value of a signature is the RSA signature, in base64, of the canonical form of its signed
information.  `verifyValue` checks it, `produceValue` puts it in.
-/

namespace SamlSeal

open Xml

/-- The canonical form of signed information, by the method that it names itself.  Nothing is left
out, and no prefixes are taken along. -/
def signedInfoForm (d : Document) (signedInfo : NodeId) : Except Fault String := do
  let uri ← d.algorithmOf signedInfo ElementName.canonicalizationMethod
  match Mode.ofUri? uri with
  | some mode => d.canonical signedInfo none mode.keepsComments []
  | none => .error (.unknownCanonicalization uri)

namespace Site

/-- The signature method and the canonical form that it is applied to. -/
def signedInput (ctx : Context) (d : Document) (site : Site) :
    Traced (SignatureMethod × String) := do
  let uri ← d.algorithmOf site.signedInfo ElementName.signatureMethod
  let method ← SignatureMethod.ofUri uri
  let form ← signedInfoForm d site.signedInfo
  Traced.logIf ctx.debug (.preSignature site.kind form)
  pure (method, form)

/-- The bytes of the signature value. -/
def valueBytes (d : Document) (site : Site) : Except Fault Bytes :=
  match Base64.decode? (d.unwrapped site.signatureValue) with
  | some bs => .ok bs
  | none => .error .malformedSignatureValue

/-- Whether the signature value is a signature of the signed information. -/
def verifyValue (ctx : Context) (d : Document) (site : Site) : Traced Bool := do
  let (method, form) ← site.signedInput ctx d
  let value ← site.valueBytes d
  Traced.log (.verifyingValue site.kind method.uri)
  let valid := ctx.key.verify method (utf8 form) value
  Traced.logIf (!valid) (.valueMismatch site.kind)
  pure valid

/-- Signs the signed information and puts the signature value in. -/
def produceValue (ctx : Context) (d : Document) (site : Site) : Traced Document := do
  let (method, form) ← site.signedInput ctx d
  let value ← ctx.key.sign method (utf8 form)
  d.setText site.signatureValue (String.ofList (Base64.encode value))

end Site

end SamlSeal
