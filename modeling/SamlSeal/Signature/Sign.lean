import SamlSeal.Encoding.Hex
import SamlSeal.Signature.Value

/-!
# Signing messages

A message to be signed is a template: its document element already holds a signature with everything
but the digest and the value.  Signing gives the document element an identifier and a time of issue,
points the reference to it, and fills in the digest and the value.

Signing that fails may leave part of its changes behind, so `sign` returns the document in any case.
-/

namespace SamlSeal

open Xml

/-- What a call to sign leaves behind. -/
structure Signing where
  document : Document
  trace : Traced Unit

/-- The document element of a template and the site to be signed. -/
def signingSite (ctx : Context) (d : Document) : Except Fault (NodeId × Site) := do
  if ctx.key.private?.isNone then .error .privateKeyRequired
  else match d.rootElement? with
    | none => .error .noRootElement
    | some root =>
      match ← d.rootSignature with
      | none => .error (.missingElement ElementName.signature)
      | some signature =>
        let site ← Site.locate d signature .root
        .ok (root, site)

/-- Gives the document element an identifier and a time of issue, and points the reference to it. -/
def stamp (d : Document) (root : NodeId) (site : Site) (id issueInstant : String) :
    Except Fault Document := do
  let d ← d.setAttribute root AttributeName.id id
  let d ← d.setAttribute site.reference AttributeName.uri ("#" ++ id)
  d.setAttribute root AttributeName.issueInstant issueInstant

/-- Signs a template with the given identifier and time of issue. -/
def sign (ctx : Context) (d : Document) (id issueInstant : String) : Signing :=
  match signingSite ctx d with
  | .error e => ⟨d, .lift (.error e)⟩
  | .ok (root, site) =>
    match stamp d root site id issueInstant with
    | .error e => ⟨d, .lift (.error e)⟩
    | .ok stamped =>
      let digested := site.produceDigest ctx stamped
      match digested.outcome with
      | .error e => ⟨stamped, ⟨digested.events, .error e⟩⟩
      | .ok d =>
        let valued := site.produceValue ctx d
        match valued.outcome with
        | .error e => ⟨d, ⟨digested.events ++ valued.events, .error e⟩⟩
        | .ok d => ⟨d, ⟨digested.events ++ valued.events ++ [.signed id issueInstant], .ok ()⟩⟩

end SamlSeal
