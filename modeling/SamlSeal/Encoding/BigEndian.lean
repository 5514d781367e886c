/-!
# Big-endian numbers

Bytes as digits to the base 256, the most significant first.
-/

namespace SamlSeal

/-- A sequence of bytes. -/
abbrev Bytes := List UInt8

namespace BigEndian

/-- The number that some bytes write. -/
def toNat (bs : Bytes) : Nat := bs.foldl (fun n b => n * 256 + b.toNat) 0

/-- The last `k` bytes of a number. -/
def ofNat : Nat → Nat → Bytes
  | 0, _ => []
  | k + 1, n => ofNat k (n / 256) ++ [UInt8.ofNat n]

/-- The number of bytes that a number needs, none for zero. -/
def byteLength (n : Nat) : Nat := if n = 0 then 0 else n.log2 / 8 + 1

@[simp] theorem length_ofNat (k n : Nat) : (ofNat k n).length = k := by
  induction k generalizing n with
  | zero => rfl
  | succ k ih => simp [ofNat, ih]

theorem toNat_append_singleton (bs : Bytes) (b : UInt8) :
    toNat (bs ++ [b]) = toNat bs * 256 + b.toNat := by
  simp [toNat, List.foldl_append]

/-- The last `k` bytes of a number write it modulo the `k`-th power of 256. -/
theorem toNat_ofNat (k n : Nat) : toNat (ofNat k n) = n % Nat.pow 256 k := by
  induction k generalizing n with
  | zero => exact (Nat.mod_one n).symm
  | succ k ih =>
    have split : n % Nat.pow 256 (k + 1) = n % 256 + 256 * (n / 256 % Nat.pow 256 k) := by
      rw [show Nat.pow 256 (k + 1) = 256 * Nat.pow 256 k from Nat.mul_comm _ _, Nat.mod_mul]
    rw [ofNat, toNat_append_singleton, ih, split, UInt8.toNat_ofNat']
    omega

end BigEndian

end SamlSeal
