import SamlSeal.Encoding.BigEndian

/-!
# Base64

Three bytes are written as four digits to the base 64.  A last group of one or two bytes is filled
up with `=`.  `decode?` accepts exactly what `encode` writes: the padding has to be there, and the
bits that are left over in the last digit have to be zero.
-/

namespace SamlSeal.Base64

/-- The character of a digit below 64. -/
def symbol (n : Nat) : Char :=
  if n < 26 then Char.ofNat ('A'.toNat + n)
  else if n < 52 then Char.ofNat ('a'.toNat + (n - 26))
  else if n < 62 then Char.ofNat ('0'.toNat + (n - 52))
  else if n = 62 then '+'
  else '/'

/-- The digit that a character stands for. -/
def digit? (c : Char) : Option Nat :=
  if 'A' ≤ c && c ≤ 'Z' then some (c.toNat - 'A'.toNat)
  else if 'a' ≤ c && c ≤ 'z' then some (c.toNat - 'a'.toNat + 26)
  else if '0' ≤ c && c ≤ '9' then some (c.toNat - '0'.toNat + 52)
  else if c = '+' then some 62
  else if c = '/' then some 63
  else none

theorem digit?_symbol {n : Nat} (h : n < 64) : digit? (symbol n) = some n := by
  have all : ∀ k : Fin 64, digit? (symbol k.val) = some k.val := by decide
  exact all ⟨n, h⟩

theorem symbol_ne_pad {n : Nat} (h : n < 64) : symbol n ≠ '=' := by
  have all : ∀ k : Fin 64, symbol k.val ≠ '=' := by decide
  exact all ⟨n, h⟩

/-- Bytes in base64. -/
def encode : Bytes → List Char
  | a :: b :: c :: rest =>
    symbol (a.toNat / 4) :: symbol (a.toNat % 4 * 16 + b.toNat / 16) ::
      symbol (b.toNat % 16 * 4 + c.toNat / 64) :: symbol (c.toNat % 64) :: encode rest
  | [a, b] =>
    [symbol (a.toNat / 4), symbol (a.toNat % 4 * 16 + b.toNat / 16), symbol (b.toNat % 16 * 4), '=']
  | [a] => [symbol (a.toNat / 4), symbol (a.toNat % 4 * 16), '=', '=']
  | [] => []

/-- The byte of a last group with two padding characters. -/
def lastOne? (a b : Char) : Option Bytes := do
  let a ← digit? a
  let b ← digit? b
  if b % 16 = 0 then some [UInt8.ofNat (a * 4 + b / 16)] else none

/-- The bytes of a last group with one padding character. -/
def lastTwo? (a b c : Char) : Option Bytes := do
  let a ← digit? a
  let b ← digit? b
  let c ← digit? c
  if c % 4 = 0 then some [UInt8.ofNat (a * 4 + b / 16), UInt8.ofNat (b % 16 * 16 + c / 4)]
  else none

/-- The bytes of a group without padding. -/
def group? (a b c d : Char) : Option Bytes := do
  let a ← digit? a
  let b ← digit? b
  let c ← digit? c
  let d ← digit? d
  some [UInt8.ofNat (a * 4 + b / 16), UInt8.ofNat (b % 16 * 16 + c / 4),
    UInt8.ofNat (c % 4 * 64 + d)]

/-- The bytes that a text in base64 stands for. -/
def decode? : List Char → Option Bytes
  | [] => some []
  | a :: b :: c :: d :: rest =>
    if rest.isEmpty && d == '=' then
      if c = '=' then lastOne? a b else lastTwo? a b c
    else do
      let bs ← group? a b c d
      let more ← decode? rest
      some (bs ++ more)
  | _ => none

theorem group?_symbol {a b c d : Nat} (ha : a < 64) (hb : b < 64) (hc : c < 64) (hd : d < 64) :
    group? (symbol a) (symbol b) (symbol c) (symbol d) =
      some [UInt8.ofNat (a * 4 + b / 16), UInt8.ofNat (b % 16 * 16 + c / 4),
        UInt8.ofNat (c % 4 * 64 + d)] := by
  simp [group?, digit?_symbol, ha, hb, hc, hd]

theorem lastTwo?_symbol {a b c : Nat} (ha : a < 64) (hb : b < 64) (hc : c < 64)
    (rest : c % 4 = 0) :
    lastTwo? (symbol a) (symbol b) (symbol c) =
      some [UInt8.ofNat (a * 4 + b / 16), UInt8.ofNat (b % 16 * 16 + c / 4)] := by
  simp [lastTwo?, digit?_symbol, ha, hb, hc, rest]

theorem lastOne?_symbol {a b : Nat} (ha : a < 64) (hb : b < 64) (rest : b % 16 = 0) :
    lastOne? (symbol a) (symbol b) = some [UInt8.ofNat (a * 4 + b / 16)] := by
  simp [lastOne?, digit?_symbol, ha, hb, rest]

theorem ofNat_eq_of_toNat_eq {n : Nat} {a : UInt8} (h : n = a.toNat) : UInt8.ofNat n = a := by
  rw [h, UInt8.ofNat_toNat]

/-- What is written reads back. -/
theorem decode?_encode (bs : Bytes) : decode? (encode bs) = some bs := by
  fun_induction encode bs with
  | case1 a b c rest ih =>
    have ha := a.toNat_lt
    have hb := b.toNat_lt
    have hc := c.toNat_lt
    have last : (symbol (c.toNat % 64) == '=') = false := by
      simpa using symbol_ne_pad (show c.toNat % 64 < 64 by omega)
    rw [decode?, last, Bool.and_false, if_neg (by decide),
      group?_symbol (by omega) (by omega) (by omega) (by omega), ih,
      ofNat_eq_of_toNat_eq (a := a) (by omega), ofNat_eq_of_toNat_eq (a := b) (by omega),
      ofNat_eq_of_toNat_eq (a := c) (by omega)]
    rfl
  | case2 a b =>
    have ha := a.toNat_lt
    have hb := b.toNat_lt
    rw [decode?, if_pos (by decide), if_neg (symbol_ne_pad (by omega)),
      lastTwo?_symbol (by omega) (by omega) (by omega) (by omega),
      ofNat_eq_of_toNat_eq (a := a) (by omega), ofNat_eq_of_toNat_eq (a := b) (by omega)]
  | case3 a =>
    have ha := a.toNat_lt
    rw [decode?, if_pos (by decide), if_pos rfl,
      lastOne?_symbol (by omega) (by omega) (by omega), ofNat_eq_of_toNat_eq (a := a) (by omega)]
  | case4 => rfl

end SamlSeal.Base64
