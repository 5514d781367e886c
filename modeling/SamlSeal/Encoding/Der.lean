import SamlSeal.Encoding.BigEndian

/-!
# Distinguished encoding

Readers for the elements of the distinguished encoding rules: a tag, a length, and as many bytes of
content.  Every reader takes the bytes from some place on and returns what comes after the element.
There is one encoding for each value, so lengths and numbers are written without leading zeros.
-/

namespace SamlSeal.Der

/-- The largest length that is read. -/
def maxLength : Nat := 0xFFFFFFF

/-- Reads a length in the only form it may have: one byte below 128, or the number of bytes that
the length takes, up to four, and those bytes. -/
def length? : Bytes → Option (Nat × Bytes)
  | [] => none
  | b :: rest =>
    if b < 0x80 then some (b.toNat, rest)
    else
      let k := b.toNat - 0x80
      let n := BigEndian.toNat (rest.take k)
      if 1 ≤ k ∧ k ≤ 4 ∧ k ≤ rest.length ∧ 0x80 ≤ n ∧ BigEndian.byteLength n = k ∧
          n ≤ maxLength then
        some (n, rest.drop k)
      else none

/-- Reads an element: its tag and its content. -/
def any? : Bytes → Option (UInt8 × Bytes × Bytes)
  | [] => none
  | tag :: rest => do
    let (n, rest) ← length? rest
    if n ≤ rest.length then some (tag, rest.take n, rest.drop n) else none

/-- Reads an element with the given tag. -/
def element? (tag : UInt8) (bs : Bytes) : Option (Bytes × Bytes) := do
  let (found, content, rest) ← any? bs
  if found = tag then some (content, rest) else none

/-- Reads an element with the given tag that ends where the bytes end. -/
def only? (tag : UInt8) (bs : Bytes) : Option Bytes := do
  let (content, rest) ← element? tag bs
  if rest.isEmpty then some content else none

/-! ### Tags -/

def integerTag : UInt8 := 0x02
def bitStringTag : UInt8 := 0x03
def octetStringTag : UInt8 := 0x04
def sequenceTag : UInt8 := 0x30

/-- Whether a tag is one that an element may have: of a known type, or of one of the classes that
leave the type open. -/
def isTag (tag : UInt8) : Bool :=
  if tag.toNat % 32 = 31 then false
  else if 0x40 ≤ tag then true
  else [0x01, 0x02, 0x03, 0x04, 0x05, 0x06, 0x09, 0x0A, 0x0C, 0x12, 0x13, 0x14, 0x15, 0x16, 0x17,
    0x18, 0x1A, 0x1B, 0x1E, 0x30, 0x31].contains tag

/-- Whether a tag is that of a field numbered within its structure. -/
def isField (tag : UInt8) : Bool := isTag tag && 0x80 ≤ tag && tag < 0xC0

/-- The number of such a field. -/
def fieldNumber (tag : UInt8) : Nat := tag.toNat % 32

/-- Whether a tag says that the content consists of elements. -/
def isConstructed (tag : UInt8) : Bool := tag.toNat / 32 % 2 == 1

/-! ### Values -/

/-- The number in the content of an integer.  It is not negative, and has a leading zero byte only
where the next byte would make it look negative. -/
def unsigned? : Bytes → Option Nat
  | [] => none
  | [b] => if b < 0x80 then some b.toNat else none
  | a :: b :: rest =>
    if 0x80 ≤ a ∨ (a = 0 ∧ b < 0x80) then none else some (BigEndian.toNat (a :: b :: rest))

/-- Reads an integer that is not negative. -/
def integer? (bs : Bytes) : Option (Nat × Bytes) := do
  let (content, rest) ← element? integerTag bs
  let n ← unsigned? content
  some (n, rest)

/-- The bytes in the content of a bit string that consists of whole bytes. -/
def wholeBytes? : Bytes → Option Bytes
  | 0 :: bs => some bs
  | _ => none

end SamlSeal.Der
