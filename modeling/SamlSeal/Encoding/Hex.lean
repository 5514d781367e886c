import SamlSeal.Encoding.BigEndian

/-!
# Hexadecimal text

Two lower-case digits for each byte.
-/

namespace SamlSeal.Hex

/-- The character of a digit below 16. -/
def symbol (n : Nat) : Char :=
  if n < 10 then Char.ofNat ('0'.toNat + n) else Char.ofNat ('a'.toNat + (n - 10))

/-- Bytes in hexadecimal digits. -/
def encode (bs : Bytes) : String :=
  String.ofList <| bs.flatMap fun b => [symbol (b.toNat / 16), symbol (b.toNat % 16)]

end SamlSeal.Hex
