import SamlSeal.Encoding.BigEndian

/-!
# RSA keys

A public key is a modulus and an exponent; a private key has a second exponent that undoes the
first.  `PublicKey.Valid` and `PrivateKey.ofParts?` are the conditions under which a key is used at
all.
-/

namespace SamlSeal.Rsa

structure PublicKey where
  modulus : Nat
  exponent : Nat
  deriving DecidableEq, Repr

structure PrivateKey where
  /-- The public half. -/
  publicKey : PublicKey
  /-- The private exponent. -/
  secret : Nat
  deriving DecidableEq, Repr

namespace PublicKey

/-- The length of the modulus in bytes, which is also the length of signatures. -/
def size (key : PublicKey) : Nat := BigEndian.byteLength key.modulus

/-- The largest public exponent. -/
def maxExponent : Nat := 0x1FFFFFFFF

/-- Whether the numbers of a key fit together: modulus and exponent are odd, and the exponent is
small but not too small. -/
def Valid (key : PublicKey) : Prop :=
  key.modulus % 2 = 1 ∧ key.exponent % 2 = 1 ∧ 2 ≤ key.exponent ∧
    key.exponent ≤ maxExponent ∧ key.exponent < key.modulus

instance (key : PublicKey) : Decidable key.Valid := by unfold Valid; infer_instance

/-- The largest modulus of a public key, in bits. -/
def maxBits : Nat := 4096

/-- The public key of the given numbers. -/
def ofParts? (modulus exponent : Nat) : Option PublicKey :=
  let key : PublicKey := ⟨modulus, exponent⟩
  if key.Valid ∧ modulus.log2 < maxBits then some key else none

end PublicKey

namespace PrivateKey

/-- The private key of the given numbers, with the factors `p` and `q` of the modulus.  The two
exponents undo each other modulo `p - 1` and modulo `q - 1`. -/
def ofParts? (modulus exponent secret p q : Nat) : Option PrivateKey :=
  let key : PublicKey := ⟨modulus, exponent⟩
  if key.Valid ∧ 1 < p ∧ 1 < q ∧ p * q = modulus ∧
      exponent * secret % (p - 1) = 1 ∧ exponent * secret % (q - 1) = 1 then
    some ⟨key, secret⟩
  else none

end PrivateKey

end SamlSeal.Rsa
