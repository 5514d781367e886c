import SamlSeal.Signature.Value

/-!
# Verifying messages

A message has to carry a signature in its document element.  The signature of its assertion, if
there is one, is checked first, then the signature of the message; each by its digest and then by
its value.  The first mismatch ends the check.
-/

namespace SamlSeal

open Xml

/-- Checks one signature. -/
def verifySite (ctx : Context) (d : Document) (kind : SiteKind) (signature : NodeId) :
    Traced Bool := do
  let site ← Site.locate d signature kind
  Traced.log (.verifyingSignature kind)
  if ← site.verifyDigest ctx d then site.verifyValue ctx d else pure false

/-- Checks the signature of the assertion, if there is one. -/
def verifyAssertion (ctx : Context) (d : Document) : Traced Bool :=
  match d.assertionSignature? with
  | some signature => verifySite ctx d .assertion signature
  | none => pure true

/-- Checks the signatures of a message. -/
def verify (ctx : Context) (d : Document) : Traced Bool := do
  match ← d.rootSignature with
  | none => Traced.lift (.error .unsignedMessage)
  | some signature =>
    if ← verifyAssertion ctx d then verifySite ctx d .root signature else pure false

end SamlSeal
