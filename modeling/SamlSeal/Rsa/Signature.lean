import SamlSeal.Hash.Digest
import SamlSeal.Rsa.Key
import SamlSeal.Rsa.Power

/-!
# RSA signatures

A message is signed by raising an encoding of its hash to the private exponent.  The encoding
fills the modulus up: two fixed bytes, a run of `FF`, a zero, the name of the hash, the hash.
`verify` undoes the power with the public exponent and compares the whole encoding.
-/

namespace SamlSeal

/-- A signature method that the profile admits. -/
inductive SignatureMethod where
  | rsaSha1
  | rsaSha256
  deriving DecidableEq, Repr

namespace SignatureMethod

def uri : SignatureMethod → String
  | rsaSha1 => Algorithm.rsaSha1
  | rsaSha256 => Algorithm.rsaSha256

/-- The method with a given identifier. -/
def ofUri (uri : String) : Except Fault SignatureMethod :=
  if uri = Algorithm.rsaSha1 then .ok rsaSha1
  else if uri = Algorithm.rsaSha256 then .ok rsaSha256
  else .error (.unknownSignature uri)

theorem ofUri_eq_ok_iff {uri : String} {m : SignatureMethod} :
    ofUri uri = .ok m ↔ uri = m.uri := by
  unfold ofUri
  split
  · subst uri; cases m <;> simp [SignatureMethod.uri]; decide
  · split
    · subst uri; cases m <;> simp_all [SignatureMethod.uri]
    · cases m <;> simp_all [SignatureMethod.uri]

/-- The hash that is signed. -/
def digest : SignatureMethod → DigestMethod
  | rsaSha1 => .sha1
  | rsaSha256 => .sha256

/-- The bytes that name the hash, in front of it. -/
def hashName : SignatureMethod → Bytes
  | rsaSha1 =>
    [0x30, 0x21, 0x30, 0x09, 0x06, 0x05, 0x2b, 0x0e, 0x03, 0x02, 0x1a, 0x05, 0x00, 0x04, 0x14]
  | rsaSha256 =>
    [0x30, 0x31, 0x30, 0x0d, 0x06, 0x09, 0x60, 0x86, 0x48, 0x01, 0x65, 0x03, 0x04, 0x02, 0x01, 0x05,
     0x00, 0x04, 0x20]

/-- The hash of a message with its name. -/
def tagged (m : SignatureMethod) (message : Bytes) : Bytes := m.hashName ++ m.digest.hash message

/-- The encoding of a message in `k` bytes, if there is room for at least eight bytes `FF`. -/
def encoded? (m : SignatureMethod) (k : Nat) (message : Bytes) : Option Bytes :=
  let t := m.tagged message
  if k < t.length + 11 then none
  else some ([0x00, 0x01] ++ List.replicate (k - t.length - 3) 0xFF ++ 0x00 :: t)

/-- Signs a message.  A signature is handed out only if the public key undoes it. -/
def sign (m : SignatureMethod) (key : Rsa.PrivateKey) (message : Bytes) : Except Fault Bytes :=
  let n := key.publicKey.modulus
  match m.encoded? key.publicKey.size message with
  | none => .error .messageTooLong
  | some em =>
    let s := Rsa.powMod (BigEndian.toNat em) key.secret n
    if Rsa.powMod s key.publicKey.exponent n = BigEndian.toNat em then
      .ok (BigEndian.ofNat key.publicKey.size s)
    else .error .inconsistentKey

/-- Whether some bytes are a signature of a message. -/
def verify (m : SignatureMethod) (key : Rsa.PublicKey) (message signature : Bytes) : Bool :=
  let s := BigEndian.toNat signature
  signature.length == key.size && decide (s < key.modulus) &&
    match m.encoded? key.size message with
    | none => false
    | some em => Rsa.powMod s key.exponent key.modulus == BigEndian.toNat em

end SignatureMethod

end SamlSeal
