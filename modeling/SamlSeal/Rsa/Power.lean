/-!
# Powers modulo a number

`powMod` computes powers by repeated squaring, so that exponents of thousands of bits are no
trouble.  `powMod_eq` says that it computes the power.
-/

namespace SamlSeal.Rsa

/-- `b` to the power `e` modulo `m`. -/
def powMod (b e m : Nat) : Nat :=
  go (e.log2 + 1) b e
where
  /-- Uses the `k` lowest bits of the exponent. -/
  go : Nat → Nat → Nat → Nat
    | 0, _, _ => 1 % m
    | k + 1, b, e =>
      let r := go k (b * b % m) (e / 2)
      if e % 2 = 0 then r else r * b % m

theorem powMod_go_eq (m : Nat) {k b e : Nat} (h : e < Nat.pow 2 k) :
    powMod.go m k b e = Nat.pow b e % m := by
  induction k generalizing b e with
  | zero =>
    obtain rfl : e = 0 := by simpa using h
    rfl
  | succ k ih =>
    have half : e / 2 < Nat.pow 2 k := by
      have : Nat.pow 2 (k + 1) = Nat.pow 2 k * 2 := rfl
      omega
    have square : Nat.pow (b * b % m) (e / 2) % m = Nat.pow b (2 * (e / 2)) % m := by
      have : Nat.pow (b * b) (e / 2) = Nat.pow b (2 * (e / 2)) := by
        have := Nat.pow_mul b 2 (e / 2)
        rw [Nat.pow_two] at this
        exact this.symm
      rw [← this]
      exact (Nat.pow_mod (b * b) (e / 2) m).symm
    rw [powMod.go, ih half, square]
    split
    · next even => rw [show 2 * (e / 2) = e by omega]
    · next odd =>
      have : Nat.pow b (2 * (e / 2)) * b = Nat.pow b e := by
        have : Nat.pow b (2 * (e / 2) + 1) = Nat.pow b (2 * (e / 2)) * b := rfl
        rw [← this, show 2 * (e / 2) + 1 = e by omega]
      rw [Nat.mod_mul_mod, this]

theorem powMod_eq (b e m : Nat) : powMod b e m = Nat.pow b e % m :=
  powMod_go_eq m Nat.lt_log2_self

end SamlSeal.Rsa
