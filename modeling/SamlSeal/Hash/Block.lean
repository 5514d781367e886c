import SamlSeal.Encoding.BigEndian

/-!
# Block hashing

What SHA-1 and SHA-256 share.  A message is padded to whole blocks of sixteen words
(`padded`, `blocks`), and each block is extended to a schedule of words by a window that slides over
it (`schedule`).
-/

namespace SamlSeal.Hash

/-- The bytes of a word, the most significant first. -/
def wordBytes (w : UInt32) : Bytes :=
  [(w >>> 24).toUInt8, (w >>> 16).toUInt8, (w >>> 8).toUInt8, w.toUInt8]

@[simp] theorem length_wordBytes (w : UInt32) : (wordBytes w).length = 4 := rfl

/-- Bytes in groups of four as words. -/
def words : Bytes → List UInt32
  | a :: b :: c :: d :: rest =>
    (a.toUInt32 <<< 24 ||| b.toUInt32 <<< 16 ||| c.toUInt32 <<< 8 ||| d.toUInt32) :: words rest
  | _ => []

/-- The message, a one bit, zeros up to eight bytes before the end of a block, and the length of
the message in bits. -/
def padded (message : Bytes) : Bytes :=
  message ++ 0x80 :: List.replicate ((119 - message.length % 64) % 64) 0 ++
    BigEndian.ofNat 8 (8 * message.length)

/-- Words in blocks of sixteen; `n` bounds the number of blocks. -/
def chunks : Nat → List UInt32 → List (List UInt32)
  | 0, _ => []
  | _, [] => []
  | n + 1, ws => ws.take 16 :: chunks n (ws.drop 16)

/-- The blocks of a message. -/
def blocks (message : Bytes) : List (List UInt32) :=
  chunks (message.length / 64 + 2) (words (padded message))

/-- Extends a block by `n` words.  Each new word is made from the sixteen words before it. -/
def schedule (next : List UInt32 → UInt32) : Nat → List UInt32 → List UInt32
  | 0, window => window
  | _ + 1, [] => []
  | n + 1, w :: window => w :: schedule next n (window ++ [next (w :: window)])

/-- Rotates a word to the left. -/
def rotl (w : UInt32) (n : UInt32) : UInt32 := w <<< n ||| w >>> (32 - n)

/-- Rotates a word to the right. -/
def rotr (w : UInt32) (n : UInt32) : UInt32 := w >>> n ||| w <<< (32 - n)

end SamlSeal.Hash
