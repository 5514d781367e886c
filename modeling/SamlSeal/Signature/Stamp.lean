import SamlSeal.Encoding.Hex

/-!
# Identifiers and times of issue

A fresh identifier is sixteen random bytes in hexadecimal digits.  A time of issue is written as in
`2024-05-01T10:00:00.000Z`, in universal time to the millisecond.
-/

namespace SamlSeal

/-- The number of random bytes in an identifier. -/
def identifierBytes : Nat := 16

/-- The identifier made from some random bytes. -/
def identifier (random : Bytes) : String := Hex.encode random

namespace Instant

/-- Decimal digits with leading zeros, at least `width` of them. -/
def padded (width n : Nat) : String :=
  let digits := toString n
  String.ofList (List.replicate (width - digits.length) '0') ++ digits

/-- The year, month and day that begin `n` days after the start of 1970.  Years are counted from
March, so that the leap day is the last one, and in cycles of 400 years. -/
def civil (n : Nat) : Nat × Nat × Nat :=
  let z := n + 719468
  let cycle := z / 146097
  let day := z % 146097
  let year := (day - day / 1460 + day / 36524 - day / 146096) / 365
  let ofYear := day - (365 * year + year / 4 - year / 100)
  let march := (5 * ofYear + 2) / 153
  let month := if march < 10 then march + 3 else march - 9
  (year + cycle * 400 + (if month ≤ 2 then 1 else 0), month, ofYear - (153 * march + 2) / 5 + 1)

/-- The text of a time, given in milliseconds since the start of 1970. -/
def write (millis : Nat) : String :=
  let seconds := millis / 1000
  let (year, month, day) := civil (seconds / 86400)
  padded 4 year ++ "-" ++ padded 2 month ++ "-" ++ padded 2 day ++ "T" ++
    padded 2 (seconds / 3600 % 24) ++ ":" ++ padded 2 (seconds / 60 % 60) ++ ":" ++
    padded 2 (seconds % 60) ++ "." ++ padded 3 (millis % 1000) ++ "Z"

end Instant

end SamlSeal
