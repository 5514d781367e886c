import SamlSeal.Fault
import SamlSeal.Hash.Sha1
import SamlSeal.Hash.Sha256
import SamlSeal.Vocabulary

/-!
# Digest methods

The two hashes that a reference may name.
-/

namespace SamlSeal

/-- A hash that the profile admits. -/
inductive DigestMethod where
  | sha1
  | sha256
  deriving DecidableEq, Repr

namespace DigestMethod

def uri : DigestMethod → String
  | sha1 => Algorithm.sha1
  | sha256 => Algorithm.sha256

/-- The method with a given identifier. -/
def ofUri (uri : String) : Except Fault DigestMethod :=
  if uri = Algorithm.sha1 then .ok sha1
  else if uri = Algorithm.sha256 then .ok sha256
  else .error (.unknownDigest uri)

theorem ofUri_eq_ok_iff {uri : String} {m : DigestMethod} : ofUri uri = .ok m ↔ uri = m.uri := by
  unfold ofUri
  split
  · subst uri; cases m <;> simp [DigestMethod.uri]; decide
  · split
    · subst uri; cases m <;> simp_all [DigestMethod.uri]
    · cases m <;> simp_all [DigestMethod.uri]

/-- The hash of a message. -/
def hash : DigestMethod → Bytes → Bytes
  | sha1 => Hash.Sha1.hash
  | sha256 => Hash.Sha256.hash

/-- The number of bytes of a hash. -/
def size : DigestMethod → Nat
  | sha1 => 20
  | sha256 => 32

@[simp] theorem length_hash (m : DigestMethod) (message : Bytes) :
    (m.hash message).length = m.size := by
  cases m <;> rfl

end DigestMethod

end SamlSeal
