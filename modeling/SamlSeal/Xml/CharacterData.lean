import SamlSeal.Xml.Character

/-!
# Character data

What a stretch of characters in markup stands for.  A reader first tells literal characters from
referenced ones (`glyphs`), then evens out line ends: `textValue` for the content of elements,
`attributeValue` for attribute values.  Referenced characters are never changed, which is how a
writer protects a carriage return.
-/

namespace SamlSeal.Xml

/-- A character of a text, with the way in which it was given. -/
inductive Glyph where
  /-- The character itself stands in the text. -/
  | literal (c : Char)
  /-- A reference such as `&lt;` or `&#xD;` stands in the text. -/
  | referenced (c : Char)
  deriving DecidableEq, Repr

/-! ### References -/

/-- The value of a hexadecimal digit. -/
def hexDigit? (c : Char) : Option Nat :=
  if '0' ≤ c && c ≤ '9' then some (c.toNat - '0'.toNat)
  else if 'a' ≤ c && c ≤ 'f' then some (c.toNat - 'a'.toNat + 10)
  else if 'A' ≤ c && c ≤ 'F' then some (c.toNat - 'A'.toNat + 10)
  else none

/-- The value of a decimal digit. -/
def decimalDigit? (c : Char) : Option Nat :=
  if '0' ≤ c && c ≤ '9' then some (c.toNat - '0'.toNat) else none

/-- The number that a non-empty list of digits writes. -/
def number? (base : Nat) (digit? : Char → Option Nat) (cs : List Char) : Option Nat :=
  if cs.isEmpty then none
  else (cs.mapM digit?).map fun ds => ds.foldl (fun n d => n * base + d) 0

/-- The character at a code position of at most 32 bits.  A position that is no character gives the
replacement character. -/
def charAt? (n : Nat) : Option Char :=
  if n < 0x100000000 then
    let c := if n.isValidChar then Char.ofNat n else Char.ofNat 0xFFFD
    if isChar c then some c else none
  else none

/-- What the characters between `&` and `;` refer to: a code position, or one of five names. -/
def referent? : List Char → Option Char
  | '#' :: 'x' :: cs => (number? 16 hexDigit? cs).bind charAt?
  | '#' :: cs => (number? 10 decimalDigit? cs).bind charAt?
  | ['l', 't'] => some '<'
  | ['g', 't'] => some '>'
  | ['a', 'm', 'p'] => some '&'
  | ['q', 'u', 'o', 't'] => some '"'
  | ['a', 'p', 'o', 's'] => some '\''
  | _ => none

/-- Tells the literal characters of a text from its references.  Fails at a bare `&` and at a
reference to nothing. -/
def glyphs (cs : List Char) : Option (List Glyph) :=
  go none cs
where
  /-- `pending` holds what stands after an `&` whose `;` is still to come, last character first. -/
  go : Option (List Char) → List Char → Option (List Glyph)
    | none, [] => some []
    | some _, [] => none
    | none, c :: cs => if c = '&' then go (some []) cs else (go none cs).map (.literal c :: ·)
    | some body, c :: cs =>
      if c = ';' then
        (referent? body.reverse).bind fun r => (go none cs).map (.referenced r :: ·)
      else go (some (c :: body)) cs

/-! ### Line ends in content -/

/-- Even out the line ends of one run of content: a carriage return, alone or before a line feed,
becomes a line feed.  The character right after a reference is taken as it is, and so is a
carriage return right before one. -/
def evenLines (gs : List Glyph) : List Char :=
  go false false gs
where
  /-- `held`: a carriage return was read and is still to be written.  `asIs`: a reference stands
  right before. -/
  go : Bool → Bool → List Glyph → List Char
    | held, _, [] => if held then ['\r'] else []
    | held, _, .referenced c :: gs =>
      (if held then ['\r'] else []) ++
        if c = '\r' then go true true gs else c :: go false true gs
    | held, true, .literal c :: gs =>
      (if held then ['\r'] else []) ++
        if c = '\r' then go true false gs else c :: go false false gs
    | held, false, .literal c :: gs =>
      (if held then ['\n'] else []) ++
        if c = '\r' then if gs.isEmpty then ['\n'] else go true false gs
        else if held ∧ c = '\n' then go false false gs
        else c :: go false false gs

/-- The text that one run of content, free of markup, stands for. -/
def textValue (raw : List Char) : Option (List Char) :=
  (glyphs raw).map evenLines

/-- The text of a literal section, in which nothing is a reference. -/
def sectionValue (raw : List Char) : List Char :=
  evenLines (raw.map .literal)

/-! ### White space in attribute values -/

/-- Literal white space of an attribute value becomes spaces, one for each line end. -/
def evenSpaces : List Glyph → List Char
  | [] => []
  | .referenced c :: gs => c :: evenSpaces gs
  | .literal '\r' :: .literal '\n' :: gs => ' ' :: evenSpaces gs
  | .literal c :: gs => (if isSpace c then ' ' else c) :: evenSpaces gs

/-- The text that stands between the quotes of an attribute. -/
def attributeValue (raw : List Char) : Option (List Char) :=
  (glyphs raw).map evenSpaces

end SamlSeal.Xml
