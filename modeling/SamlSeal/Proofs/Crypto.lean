import SamlSeal.Encoding.Base64
import SamlSeal.Key.Basic
import SamlSeal.Xml.Character

/-!
# Base64 and RSA signatures

* `Base64.decode?_eq_some_iff`: the text that stands for some bytes is the one that is written for
  them, so base64 has one form for each sequence of bytes,
* `Base64.filter_encode`: no white space is written, so none is lost when it is taken out,
* `Rsa.PublicKey.Accepts`: what the signatures of a message are, as the scheme has it, and
  `Key.verify_eq_true_iff`: these are the ones that pass,
* `Key.verify_of_sign`: a signature is valid for both halves of the key that made it.
-/

namespace SamlSeal

namespace Base64

/-! ### Base64 -/

theorem toNat_lt_of_digit? {c : Char} {n : Nat} (h : digit? c = some n) : c.toNat < 128 := by
  have below {a b : Char} (hb : b.toNat < 128)
      (h : (decide (a ≤ c) && decide (c ≤ b)) = true) : c.toNat < 128 := by
    have hc : c ≤ b := of_decide_eq_true (Bool.and_eq_true_iff.1 h).2
    exact Nat.lt_of_le_of_lt (UInt32.le_iff_toNat_le.1 hc) hb
  rw [digit?] at h
  split at h
  · next hc => exact below (by decide) hc
  split at h
  · next hc => exact below (by decide) hc
  split at h
  · next hc => exact below (by decide) hc
  split at h
  · next hc => rw [hc]; decide
  split at h
  · next hc => rw [hc]; decide
  · cases h

theorem symbol_of_digit? {c : Char} {n : Nat} (h : digit? c = some n) : n < 64 ∧ symbol n = c := by
  have all : ∀ k : Fin 128, (digit? (Char.ofNat k.val)).all fun n =>
      decide (n < 64) && symbol n == Char.ofNat k.val := by decide
  have here := all ⟨c.toNat, toNat_lt_of_digit? h⟩
  rw [Char.ofNat_toNat, h] at here
  simpa using here

theorem toNat_ofNat_of_lt {n : Nat} (h : n < 256) : (UInt8.ofNat n).toNat = n := by
  rw [UInt8.toNat_ofNat']
  exact Nat.mod_eq_of_lt h

theorem encode_lastOne? {a b : Char} {bs : Bytes} (h : lastOne? a b = some bs) :
    encode bs = [a, b, '=', '='] := by
  simp only [lastOne?, bind, Option.bind_eq_some_iff] at h
  obtain ⟨x, hx, y, hy, h⟩ := h
  obtain ⟨xlt, rfl⟩ := symbol_of_digit? hx
  obtain ⟨ylt, rfl⟩ := symbol_of_digit? hy
  split at h
  · next zero =>
    obtain rfl := Option.some.inj h
    rw [encode, toNat_ofNat_of_lt (by omega)]
    rw [show (x * 4 + y / 16) / 4 = x by omega, show (x * 4 + y / 16) % 4 * 16 = y by omega]
  · cases h

theorem encode_lastTwo? {a b c : Char} {bs : Bytes} (h : lastTwo? a b c = some bs) :
    encode bs = [a, b, c, '='] := by
  simp only [lastTwo?, bind, Option.bind_eq_some_iff] at h
  obtain ⟨x, hx, y, hy, z, hz, h⟩ := h
  obtain ⟨xlt, rfl⟩ := symbol_of_digit? hx
  obtain ⟨ylt, rfl⟩ := symbol_of_digit? hy
  obtain ⟨zlt, rfl⟩ := symbol_of_digit? hz
  split at h
  · next zero =>
    obtain rfl := Option.some.inj h
    rw [encode, toNat_ofNat_of_lt (by omega), toNat_ofNat_of_lt (by omega)]
    rw [show (x * 4 + y / 16) / 4 = x by omega,
      show (x * 4 + y / 16) % 4 * 16 + (y % 16 * 16 + z / 4) / 16 = y by omega,
      show (y % 16 * 16 + z / 4) % 16 * 4 = z by omega]
  · cases h

theorem encode_group? {a b c d : Char} {bs : Bytes} (h : group? a b c d = some bs) (more : Bytes) :
    encode (bs ++ more) = a :: b :: c :: d :: encode more := by
  simp only [group?, bind, Option.bind_eq_some_iff] at h
  obtain ⟨x, hx, y, hy, z, hz, w, hw, h⟩ := h
  obtain ⟨xlt, rfl⟩ := symbol_of_digit? hx
  obtain ⟨ylt, rfl⟩ := symbol_of_digit? hy
  obtain ⟨zlt, rfl⟩ := symbol_of_digit? hz
  obtain ⟨wlt, rfl⟩ := symbol_of_digit? hw
  obtain rfl := Option.some.inj h
  simp only [List.cons_append, List.nil_append, encode]
  rw [toNat_ofNat_of_lt (by omega), toNat_ofNat_of_lt (by omega), toNat_ofNat_of_lt (by omega)]
  rw [show (x * 4 + y / 16) / 4 = x by omega,
    show (x * 4 + y / 16) % 4 * 16 + (y % 16 * 16 + z / 4) / 16 = y by omega,
    show (y % 16 * 16 + z / 4) % 16 * 4 + (z % 4 * 64 + w) / 64 = z by omega,
    show (z % 4 * 64 + w) % 64 = w by omega]

theorem encode_of_decode? {cs : List Char} {bs : Bytes} (h : decode? cs = some bs) :
    encode bs = cs := by
  fun_induction decode? cs generalizing bs with
  | case1 =>
    obtain rfl := Option.some.inj h
    rfl
  | case2 a b d rest last =>
    obtain ⟨rfl, rfl⟩ : rest = [] ∧ d = '=' := by simpa using last
    exact encode_lastOne? h
  | case3 a b c d rest last pad =>
    obtain ⟨rfl, rfl⟩ : rest = [] ∧ d = '=' := by simpa using last
    exact encode_lastTwo? h
  | case4 a b c d rest last ih =>
    simp only [bind, Option.bind_eq_some_iff] at h
    obtain ⟨bs, hbs, more, hmore, h⟩ := h
    obtain rfl := Option.some.inj h
    rw [encode_group? hbs, ih hmore]
  | case5 => cases h

/-- A text stands for some bytes exactly if it is what is written for them. -/
theorem decode?_eq_some_iff {cs : List Char} {bs : Bytes} :
    decode? cs = some bs ↔ cs = encode bs :=
  ⟨fun h => (encode_of_decode? h).symm, fun h => h ▸ decode?_encode bs⟩

theorem encode_injective {as bs : Bytes} (h : encode as = encode bs) : as = bs := by
  have := decode?_encode as
  rw [h, decode?_encode] at this
  exact (Option.some.inj this).symm

/-- A text in base64 holds nothing but symbols and padding. -/
theorem mem_encode {bs : Bytes} {c : Char} (h : c ∈ encode bs) :
    c = '=' ∨ ∃ n < 64, c = symbol n := by
  fun_induction encode bs with
  | case1 x y z rest ih =>
    have hx := x.toNat_lt
    have hy := y.toNat_lt
    simp only [List.mem_cons] at h
    obtain rfl | rfl | rfl | rfl | h := h
    · exact .inr ⟨_, by omega, rfl⟩
    · exact .inr ⟨_, by omega, rfl⟩
    · exact .inr ⟨_, by have := z.toNat_lt; omega, rfl⟩
    · exact .inr ⟨_, by omega, rfl⟩
    · exact ih h
  | case2 x y =>
    have hx := x.toNat_lt
    have hy := y.toNat_lt
    simp only [List.mem_cons, List.not_mem_nil, or_false] at h
    obtain rfl | rfl | rfl | rfl := h
    · exact .inr ⟨_, by omega, rfl⟩
    · exact .inr ⟨_, by omega, rfl⟩
    · exact .inr ⟨_, by omega, rfl⟩
    · exact .inl rfl
  | case3 x =>
    have hx := x.toNat_lt
    simp only [List.mem_cons, List.not_mem_nil, or_false] at h
    obtain rfl | rfl | rfl | rfl := h
    · exact .inr ⟨_, by omega, rfl⟩
    · exact .inr ⟨_, by omega, rfl⟩
    · exact .inl rfl
    · exact .inl rfl
  | case4 => cases h

/-- Symbols and padding are characters of XML, none of them white space. -/
theorem isChar_of_mem_encode {bs : Bytes} {c : Char} (h : c ∈ encode bs) :
    Xml.isChar c = true ∧ Xml.isSpace c = false := by
  have all : ∀ k : Fin 64, Xml.isChar (symbol k.val) = true ∧ Xml.isSpace (symbol k.val) = false := by
    decide
  rcases mem_encode h with rfl | ⟨n, lt, rfl⟩
  · decide
  · exact all ⟨n, lt⟩

/-- Taking white space out of a text in base64 takes nothing out. -/
theorem filter_encode (bs : Bytes) : (encode bs).filter (!Xml.isSpace ·) = encode bs := by
  refine List.filter_eq_self.2 fun c hc => ?_
  rw [(isChar_of_mem_encode hc).2]
  rfl

end Base64

/-! ### RSA -/

theorem BigEndian.lt_pow_byteLength (n : Nat) : n < Nat.pow 256 (byteLength n) := by
  rw [byteLength]
  split
  · next zero => rw [zero]; decide
  · have bits : Nat.pow 256 (n.log2 / 8 + 1) = 2 ^ (8 * (n.log2 / 8 + 1)) :=
      (Nat.pow_mul 2 8 _).symm
    rw [bits]
    refine Nat.lt_of_lt_of_le Nat.lt_log2_self (Nat.pow_le_pow_right (by decide) ?_)
    omega

/-- Some bytes are a signature of a message by RSASSA-PKCS1-v1_5: they are as long as the modulus,
their number is below it, and the power of that is the number of the hash with its name, filled up
to the length of the modulus by at least eight bytes `FF`. -/
structure Rsa.PublicKey.Accepts (key : Rsa.PublicKey) (m : SignatureMethod)
    (message signature : Bytes) : Prop where
  length : signature.length = key.size
  below : BigEndian.toNat signature < key.modulus
  power : ∃ em run, 8 ≤ run ∧ em.length = key.size ∧
    em = [0x00, 0x01] ++ List.replicate run 0xFF ++ 0x00 :: (m.hashName ++ m.digest.hash message) ∧
    Nat.pow (BigEndian.toNat signature) key.exponent % key.modulus = BigEndian.toNat em

namespace SignatureMethod

/-- The encoding of a message has the length that is asked for, and the run in it is not too
short. -/
theorem encoded?_eq_some_iff {m : SignatureMethod} {k : Nat} {message em : Bytes} :
    m.encoded? k message = some em ↔ ∃ run, 8 ≤ run ∧ em.length = k ∧
      em = [0x00, 0x01] ++ List.replicate run 0xFF ++ 0x00 :: m.tagged message := by
  have length (run : Nat) :
      ([0x00, 0x01] ++ List.replicate run 0xFF ++ 0x00 :: m.tagged message).length =
        run + (m.tagged message).length + 3 := by
    simp only [List.length_append, List.length_cons, List.length_nil, List.length_replicate]
    omega
  rw [encoded?]
  constructor
  · intro h
    split at h
    · cases h
    · next room =>
      obtain rfl := Option.some.inj h
      refine ⟨_, ?_, (length _).trans ?_, rfl⟩
      · omega
      · omega
  · rintro ⟨run, enough, rfl, rfl⟩
    rw [length, if_neg (by omega)]
    rw [show run + (m.tagged message).length + 3 - (m.tagged message).length - 3 = run by omega]

/-- The signatures that pass are those of the scheme. -/
theorem verify_eq_true_iff {m : SignatureMethod} {key : Rsa.PublicKey}
    {message signature : Bytes} :
    m.verify key message signature = true ↔ key.Accepts m message signature := by
  simp only [verify, Bool.and_eq_true, beq_iff_eq, decide_eq_true_eq, Rsa.powMod_eq]
  constructor
  · rintro ⟨⟨length, below⟩, power⟩
    split at power
    · cases power
    · next em hem =>
      obtain ⟨run, enough, full, eq⟩ := encoded?_eq_some_iff.1 hem
      exact ⟨length, below, em, run, enough, full, eq, beq_iff_eq.1 power⟩
  · rintro ⟨length, below, em, run, enough, full, eq, power⟩
    rw [encoded?_eq_some_iff.2 ⟨run, enough, full, eq⟩]
    exact ⟨⟨length, below⟩, beq_iff_eq.2 power⟩

theorem sign_cases {m : SignatureMethod} {key : Rsa.PrivateKey} {message signature : Bytes}
    (h : m.sign key message = .ok signature) :
    ∃ em, m.encoded? key.publicKey.size message = some em ∧
      Rsa.powMod (Rsa.powMod (BigEndian.toNat em) key.secret key.publicKey.modulus)
        key.publicKey.exponent key.publicKey.modulus = BigEndian.toNat em ∧
      signature = BigEndian.ofNat key.publicKey.size
        (Rsa.powMod (BigEndian.toNat em) key.secret key.publicKey.modulus) := by
  simp only [sign] at h
  split at h
  · cases h
  · next em hem =>
    split at h
    · next undone => exact ⟨em, hem, undone, by injection h with h; exact h.symm⟩
    · cases h

/-- A message fits only into a modulus that is not zero. -/
theorem modulus_pos {m : SignatureMethod} {key : Rsa.PublicKey} {message em : Bytes}
    (h : m.encoded? key.size message = some em) : 0 < key.modulus := by
  rcases Nat.eq_zero_or_pos key.modulus with zero | pos
  · have size : key.size = 0 := by rw [Rsa.PublicKey.size, zero]; rfl
    simp only [encoded?, size] at h
    split at h
    · cases h
    · next room => exact absurd (Nat.zero_lt_succ _) room
  · exact pos

/-- What the private half signs, the public half accepts. -/
theorem verify_of_sign {m : SignatureMethod} {key : Rsa.PrivateKey} {message signature : Bytes}
    (h : m.sign key message = .ok signature) :
    m.verify key.publicKey message signature = true := by
  obtain ⟨em, hem, undone, rfl⟩ := sign_cases h
  have small : Rsa.powMod (BigEndian.toNat em) key.secret key.publicKey.modulus <
      key.publicKey.modulus := by
    rw [Rsa.powMod_eq]
    exact Nat.mod_lt _ (modulus_pos hem)
  have fits := Nat.lt_trans small (BigEndian.lt_pow_byteLength key.publicKey.modulus)
  have read : BigEndian.toNat (BigEndian.ofNat key.publicKey.size
      (Rsa.powMod (BigEndian.toNat em) key.secret key.publicKey.modulus)) =
        Rsa.powMod (BigEndian.toNat em) key.secret key.publicKey.modulus := by
    rw [BigEndian.toNat_ofNat]
    exact Nat.mod_eq_of_lt fits
  simp only [verify, read, hem, undone, BigEndian.length_ofNat, small, decide_true, beq_self_eq_true,
    Bool.and_true]

end SignatureMethod

theorem Key.verify_eq_true_iff {key : Key} {m : SignatureMethod} {message signature : Bytes} :
    key.verify m message signature = true ↔ key.toPublic.Accepts m message signature :=
  SignatureMethod.verify_eq_true_iff

/-- A signature is valid for every key with the same public half as the key that made it. -/
theorem Key.verify_of_sign {key key' : Key} {m : SignatureMethod} {message signature : Bytes}
    (h : key.sign m message = .ok signature) (same : key'.toPublic = key.toPublic) :
    key'.verify m message signature = true := by
  cases key with
  | privateKey key =>
    rw [Key.verify, same]
    exact SignatureMethod.verify_of_sign h
  | publicKey key => cases h

end SamlSeal
