import SamlSeal.Signature.Site

/-!
# Traces

Verifying and signing report what they do.  An `Event` is one report, and `Traced` is the outcome of
a computation together with its events, in order.  A computation that fails keeps the events it made
before.
-/

namespace SamlSeal

inductive Level where
  | debug
  | info
  | warn
  deriving DecidableEq, Repr

def Level.name : Level → String
  | debug => "DEBUG"
  | info => "INFO"
  | warn => "WARN"

/-- Something that verifying or signing reports. -/
inductive Event where
  /-- The message of a file is about to be verified. -/
  | verifyingFile (path : String)
  /-- The template of a file is about to be signed. -/
  | signingTemplate (path : String)
  /-- A site is about to be verified. -/
  | verifyingSignature (site : SiteKind)
  /-- The canonical form that is hashed. -/
  | preDigest (site : SiteKind) (data : String)
  /-- The digest of the signed element, and the one in the signature. -/
  | referenceDigest (site : SiteKind) (computed expected : String)
  | digestMismatch (site : SiteKind)
  /-- The digest that was put into the signature. -/
  | producedDigest (site : SiteKind) (computed : String)
  /-- The canonical form that is signed. -/
  | preSignature (site : SiteKind) (data : String)
  | verifyingValue (site : SiteKind) (method : String)
  | valueMismatch (site : SiteKind)
  /-- A message was signed. -/
  | signed (id issueInstant : String)
  deriving DecidableEq, Repr

namespace Event

def level : Event → Level
  | digestMismatch _ | valueMismatch _ => .warn
  | verifyingFile _ | signingTemplate _ | signed .. => .info
  | _ => .debug

def message : Event → String
  | verifyingFile _ => "verifying"
  | signingTemplate _ => "signing"
  | verifyingSignature _ => "verifying signature"
  | preDigest .. => "pre-digest data"
  | referenceDigest .. => "reference digest"
  | digestMismatch _ => "reference digest mismatch"
  | producedDigest .. => "produced reference digest"
  | preSignature .. => "pre-signature data"
  | verifyingValue .. => "verifying signature value"
  | valueMismatch _ => "signature value mismatch"
  | signed .. => "signed SAML message"

/-- The names and values that go with the message. -/
def fields : Event → List (String × String)
  | verifyingFile path => [("file", path)]
  | signingTemplate path => [("template", path)]
  | verifyingSignature site | digestMismatch site | valueMismatch site => [("site", site.name)]
  | preDigest site data | preSignature site data => [("site", site.name), ("data", data)]
  | referenceDigest site computed expected =>
    [("site", site.name), ("computed", computed), ("expected", expected)]
  | producedDigest site computed => [("site", site.name), ("computed", computed)]
  | verifyingValue site method => [("site", site.name), ("method", method)]
  | signed id issueInstant => [("id", id), ("issue_instant", issueInstant)]

end Event

/-- An outcome, with the events on the way to it. -/
structure Traced (α : Type) where
  events : List Event
  outcome : Except Fault α

namespace Traced

variable {α β : Type}

/-- Goes on with a result.  After a fault nothing more happens. -/
protected def bind (x : Traced α) (f : α → Traced β) : Traced β :=
  match x.outcome with
  | .ok a => ⟨x.events ++ (f a).events, (f a).outcome⟩
  | .error e => ⟨x.events, .error e⟩

instance : Monad Traced where
  pure a := ⟨[], .ok a⟩
  bind := Traced.bind

/-- Reports an event. -/
def log (e : Event) : Traced Unit := ⟨[e], .ok ()⟩

/-- Reports an event if the condition holds. -/
def logIf (c : Bool) (e : Event) : Traced Unit := if c then log e else pure ()

/-- An outcome without events. -/
def lift (x : Except Fault α) : Traced α := ⟨[], x⟩

instance : MonadLift (Except Fault) Traced := ⟨lift⟩

@[simp] theorem events_pure (a : α) : (pure a : Traced α).events = [] := rfl

@[simp] theorem outcome_pure (a : α) : (pure a : Traced α).outcome = .ok a := rfl

@[simp] theorem events_log (e : Event) : (log e).events = [e] := rfl

@[simp] theorem outcome_log (e : Event) : (log e).outcome = .ok () := rfl

@[simp] theorem events_lift (x : Except Fault α) : (lift x).events = [] := rfl

@[simp] theorem outcome_lift (x : Except Fault α) : (lift x).outcome = x := rfl

theorem bind_of_ok {x : Traced α} {a : α} (f : α → Traced β) (h : x.outcome = .ok a) :
    x >>= f = ⟨x.events ++ (f a).events, (f a).outcome⟩ := by
  simp [bind, Traced.bind, h]

theorem bind_of_error {x : Traced α} {e : Fault} (f : α → Traced β) (h : x.outcome = .error e) :
    x >>= f = ⟨x.events, .error e⟩ := by
  simp [bind, Traced.bind, h]

end Traced

end SamlSeal
