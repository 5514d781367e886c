import SamlSeal.Hash.Block

/-!
# SHA-1
-/

namespace SamlSeal.Hash.Sha1

/-- The chaining value. -/
structure State where
  a : UInt32
  b : UInt32
  c : UInt32
  d : UInt32
  e : UInt32

def initial : State := ⟨0x67452301, 0xEFCDAB89, 0x98BADCFE, 0x10325476, 0xC3D2E1F0⟩

/-- The next word of the schedule. -/
def next (window : List UInt32) : UInt32 :=
  rotl (window.getD 13 0 ^^^ window.getD 8 0 ^^^ window.getD 2 0 ^^^ window.getD 0 0) 1

/-- The function and the constant of a round. -/
def round (i : Nat) (b c d : UInt32) : UInt32 × UInt32 :=
  if i < 20 then (b &&& c ||| ~~~b &&& d, 0x5A827999)
  else if i < 40 then (b ^^^ c ^^^ d, 0x6ED9EBA1)
  else if i < 60 then (b &&& c ||| b &&& d ||| c &&& d, 0x8F1BBCDC)
  else (b ^^^ c ^^^ d, 0xCA62C1D6)

/-- One round, with a word of the schedule and its number. -/
def step (s : State) (word : UInt32 × Nat) : State :=
  let (f, k) := round word.2 s.b s.c s.d
  ⟨rotl s.a 5 + f + s.e + k + word.1, s.a, rotl s.b 30, s.c, s.d⟩

/-- Takes one block into the chaining value. -/
def compress (s : State) (block : List UInt32) : State :=
  let t := (schedule next 64 block).zipIdx.foldl step s
  ⟨s.a + t.a, s.b + t.b, s.c + t.c, s.d + t.d, s.e + t.e⟩

/-- The SHA-1 hash of a message. -/
def hash (message : Bytes) : Bytes :=
  let s := (blocks message).foldl compress initial
  [s.a, s.b, s.c, s.d, s.e].flatMap wordBytes

@[simp] theorem length_hash (message : Bytes) : (hash message).length = 20 := rfl

end SamlSeal.Hash.Sha1
