import Mathlib.Data.List.Induction
import SamlSeal.Proofs.Crypto

/-!
# A signature binds its method and its message

`verify` never sees the message that was signed: it compares a power of the signature with the
encoding of the message at hand.  So a signature binds as much as encodings tell apart.

* `BigEndian.toNat_injective`: bytes of one length are told apart by their number,
* `SignatureMethod.encoded?_injective`: an encoding has one method and one hash,
* `Key.verify_signature`: a signature is valid for the method that made it and for the messages with
  the hash of the signed one, and for nothing else.
-/

namespace SamlSeal

namespace BigEndian

theorem ofNat_toNat (bs : Bytes) : ofNat bs.length (toNat bs) = bs := by
  -- the last byte is the remainder, so the induction goes from the back
  induction bs using List.reverseRecOn with
  | nil => rfl
  | append_singleton bs b ih =>
    have hb := b.toNat_lt
    have front : (toNat bs * 256 + b.toNat) / 256 = toNat bs := by omega
    have last : UInt8.ofNat (toNat bs * 256 + b.toNat) = b := by
      apply UInt8.toNat.inj
      rw [UInt8.toNat_ofNat']
      omega
    rw [List.length_append, List.length_singleton, toNat_append_singleton, ofNat, front, last, ih]

/-- Leading zeros apart, bytes are known from their number. -/
theorem toNat_injective {as bs : Bytes} (length : as.length = bs.length)
    (number : toNat as = toNat bs) : as = bs := by
  rw [← ofNat_toNat as, length, number, ofNat_toNat]

end BigEndian

/-- Where a run of `c` ends is seen if something else comes next. -/
theorem run_injective {α : Type} {c d : α} (ne : d ≠ c) {a b : Nat} {s t : List α}
    (h : List.replicate a c ++ d :: s = List.replicate b c ++ d :: t) : s = t := by
  induction a generalizing b with
  | zero =>
    cases b with
    | zero => exact (List.cons.inj h).2
    | succ b => exact absurd (List.cons.inj h).1 ne
  | succ a ih =>
    cases b with
    | zero => exact absurd (List.cons.inj h).1.symm ne
    | succ b => exact ih (List.cons.inj h).2

namespace SignatureMethod

theorem encoded?_cases {m : SignatureMethod} {k : Nat} {message em : Bytes}
    (h : m.encoded? k message = some em) :
    em.length = k ∧
      ∃ run, em = 0x00 :: 0x01 :: (List.replicate run 0xFF ++ 0x00 :: m.tagged message) := by
  obtain ⟨run, -, length, eq⟩ := encoded?_eq_some_iff.1 h
  exact ⟨length, run, eq⟩

/-- The hashes of the two methods differ in length, and so do their names. -/
theorem length_tagged (m : SignatureMethod) (message : Bytes) :
    (m.tagged message).length = if m = rsaSha1 then 35 else 51 := by
  rw [tagged, List.length_append, DigestMethod.length_hash]
  cases m <;> rfl

theorem tagged_injective {m m' : SignatureMethod} {message message' : Bytes}
    (h : m'.tagged message' = m.tagged message) :
    m' = m ∧ m.digest.hash message' = m.digest.hash message := by
  have same : m' = m := by
    have length := congrArg List.length h
    rw [length_tagged, length_tagged] at length
    cases m' <;> cases m <;> first | rfl | cases length
  subst same
  exact ⟨rfl, List.append_cancel_left h⟩

/-- The encoding of a message is that of another one, in whatever number of bytes, only if both
have the same method and the same hash. -/
theorem encoded?_injective {m m' : SignatureMethod} {k k' : Nat} {message message' em : Bytes}
    (h : m.encoded? k message = some em) (h' : m'.encoded? k' message' = some em) :
    m' = m ∧ m.digest.hash message' = m.digest.hash message := by
  obtain ⟨-, run, rfl⟩ := encoded?_cases h
  obtain ⟨-, run', same⟩ := encoded?_cases h'
  have filled := (List.cons.inj (List.cons.inj same).2).2
  exact tagged_injective (run_injective (by decide) filled).symm

/-- Messages with one hash have one encoding. -/
theorem encoded?_congr {m : SignatureMethod} {k : Nat} {message message' : Bytes}
    (h : m.digest.hash message' = m.digest.hash message) :
    m.encoded? k message' = m.encoded? k message := by
  have tagged : m.tagged message' = m.tagged message := by rw [tagged, tagged, h]
  rw [encoded?, encoded?, tagged]

theorem length_of_verify {m : SignatureMethod} {key : Rsa.PublicKey} {message signature : Bytes}
    (h : m.verify key message signature = true) : signature.length = key.size :=
  (verify_eq_true_iff.1 h).length

theorem verify_congr {m : SignatureMethod} {key : Rsa.PublicKey} {message message' : Bytes}
    (h : m.digest.hash message' = m.digest.hash message) (signature : Bytes) :
    m.verify key message' signature = m.verify key message signature := by
  simp only [verify, encoded?_congr h]

/-- A signature is accepted for one power of its number, which is one encoding. -/
theorem verify_inj {m m' : SignatureMethod} {key : Rsa.PublicKey}
    {message message' signature : Bytes} (h : m.verify key message signature = true)
    (h' : m'.verify key message' signature = true) :
    m' = m ∧ m.digest.hash message' = m.digest.hash message := by
  obtain ⟨-, -, em, run, enough, full, eq, power⟩ := verify_eq_true_iff.1 h
  obtain ⟨-, -, em', run', enough', full', eq', power'⟩ := verify_eq_true_iff.1 h'
  obtain rfl : em' = em :=
    BigEndian.toNat_injective (full'.trans full.symm) (power'.symm.trans power)
  exact encoded?_injective (encoded?_eq_some_iff.2 ⟨run, enough, full, eq⟩)
    (encoded?_eq_some_iff.2 ⟨run', enough', full', eq'⟩)

end SignatureMethod

/-- A signature has the length of the modulus.  Either half of the key accepts it for the method
that made it and for the messages with the hash of the signed one; every other answer is a plain
`false`, also for bytes of another length. -/
theorem Key.verify_signature {key : Rsa.PrivateKey} {half : Key}
    (same : half.toPublic = key.publicKey) :
    (∀ m message signature, (Key.privateKey key).sign m message = .ok signature →
      signature.length = key.publicKey.size ∧
      ∀ m' message', half.verify m' message' signature =
        decide (m' = m ∧ m.digest.hash message' = m.digest.hash message)) ∧
    ∀ m message bytes, bytes.length ≠ key.publicKey.size →
      half.verify m message bytes = false := by
  have short : ∀ m message bytes, half.verify m message bytes = true →
      bytes.length = key.publicKey.size := by
    intro m message bytes h
    rw [← same]
    exact SignatureMethod.length_of_verify h
  constructor
  · intro m message signature signed
    have genuine : half.verify m message signature = true := verify_of_sign signed same
    refine ⟨short _ _ _ genuine, fun m' message' => Bool.eq_iff_iff.2 ?_⟩
    rw [decide_eq_true_iff]
    constructor
    · exact SignatureMethod.verify_inj genuine
    · rintro ⟨rfl, hash⟩
      rw [Key.verify, SignatureMethod.verify_congr hash]
      exact genuine
  · intro m message bytes length
    exact Bool.eq_false_iff.2 fun h => length (short _ _ _ h)

/-- A key with room for both methods. -/
def bindingKey : Rsa.PrivateKey where
  publicKey :=
    ⟨0xd76d9f969323f569940d8659f6d60af36e4d534236d37624fa11d47a8367e8f5f5e1697de372c80794c6d07fcd47754950adccd63a1ad1330aa91f3cd0f7,
      17⟩
  secret :=
    0x73dc4d3951491ee0947723af4ef87e5c32b791e312badebbaf5d7d07ce3393f7744b5952207b6d7ab2250fe9d58100350b94a62d970465e7ef99c4e3b51

/-- The signature of the empty message is one of no other method and of no other hash. -/
theorem Key.verify_signature_empty : ∃ signature,
    (Key.privateKey bindingKey).sign .rsaSha256 [] = .ok signature ∧ signature.length = 62 ∧
    (Key.publicKey bindingKey.publicKey).verify .rsaSha256 [] signature = true ∧
    (Key.publicKey bindingKey.publicKey).verify .rsaSha256 [0] signature = false ∧
    (∀ message, (Key.publicKey bindingKey.publicKey).verify .rsaSha1 message signature = false) ∧
    (Key.publicKey bindingKey.publicKey).verify .rsaSha256 [] (0 :: signature) = false := by
  have signs : ((Key.privateKey bindingKey).sign .rsaSha256 []).isOk = true := by decide +kernel
  have size : bindingKey.publicKey.size = 62 := by decide +kernel
  have same : (Key.publicKey bindingKey.publicKey).toPublic = bindingKey.publicKey := rfl
  obtain ⟨binds, length⟩ := verify_signature same
  cases h : (Key.privateKey bindingKey).sign .rsaSha256 [] with
  | error e => rw [h] at signs; cases signs
  | ok signature =>
    obtain ⟨long, bound⟩ := binds _ _ _ h
    refine ⟨signature, rfl, long.trans size, ?_, ?_, fun message => ?_, ?_⟩
    · rw [bound]; decide +kernel
    · rw [bound]; decide +kernel
    · rw [bound]; exact decide_eq_false fun same => by cases same.1
    · exact length _ _ _ (by rw [List.length_cons, long]; omega)

end SamlSeal
