import SamlSeal.Rsa.Signature

/-!
# Keys

A `Key` is one half of an RSA key pair.  A private key verifies through its public half; a public
key cannot sign.
-/

namespace SamlSeal

inductive Key where
  | privateKey (key : Rsa.PrivateKey)
  | publicKey (key : Rsa.PublicKey)
  deriving DecidableEq, Repr

namespace Key

/-- The public half of a key. -/
def toPublic : Key → Rsa.PublicKey
  | privateKey key => key.publicKey
  | publicKey key => key

/-- The private half of a key, if it has one. -/
def private? : Key → Option Rsa.PrivateKey
  | privateKey key => some key
  | publicKey _ => none

/-- The size of the modulus in bits, rounded up to whole bytes. -/
def bits (key : Key) : Nat := key.toPublic.size * 8

/-- What a key is, without its numbers. -/
def describe (key : Key) : String :=
  match key with
  | privateKey _ => "RSA private+public key (" ++ toString key.bits ++ " bits)"
  | publicKey _ => "RSA public key (" ++ toString key.bits ++ " bits)"

/-- Signs a message. -/
def sign (key : Key) (method : SignatureMethod) (message : Bytes) : Except Fault Bytes :=
  match key.private? with
  | some key => method.sign key message
  | none => .error .privateKeyRequired

/-- Whether some bytes are a signature of a message. -/
def verify (key : Key) (method : SignatureMethod) (message signature : Bytes) : Bool :=
  method.verify key.toPublic message signature

end Key

end SamlSeal
