import SamlSeal.Encoding.Base64
import SamlSeal.Text.Blank

/-!
# Textual armour

Binary data as text between two boundary lines that carry a label:

```
-----BEGIN PUBLIC KEY-----
MFwwDQYJ…
-----END PUBLIC KEY-----
```

The data in between is base64 in lines of 64 characters; the last line may be shorter.  Text may
stand in front of the first boundary, and none after the second one.
-/

namespace SamlSeal.Pem

/-- What armoured text holds. -/
structure Armour where
  label : String
  data : Bytes
  deriving DecidableEq, Repr

def opening : List Char := "-----BEGIN ".toList
def closing : List Char := "-----END ".toList
def dashes : List Char := "-----".toList

/-! ### Line ends -/

/-- Takes off one line end in front: a line feed, a carriage return, or both. -/
def dropLineEnd? : List Char → Option (List Char)
  | '\r' :: '\n' :: cs => some cs
  | '\r' :: cs => some cs
  | '\n' :: cs => some cs
  | _ => none

/-- Takes off one line end at the end. -/
def dropLastLineEnd? (cs : List Char) : Option (List Char) :=
  match cs.reverse with
  | '\n' :: '\r' :: rest => some rest.reverse
  | '\n' :: rest => some rest.reverse
  | '\r' :: rest => some rest.reverse
  | _ => none

/-! ### Boundaries -/

/-- The text from the first boundary on.  What is in front of it ends in a line feed and holds no
NUL. -/
def skipPreamble? (cs : List Char) : Option (List Char) :=
  if opening.isPrefixOf cs then some cs else go cs
where
  go : List Char → Option (List Char)
    | [] => none
    | c :: cs =>
      if c.toNat = 0 then none
      else if c = '\n' ∧ opening.isPrefixOf cs then some cs
      else go cs

/-- A character of a label, other than the blanks between its words. -/
def isLabelChar (c : Char) : Bool := 0x21 ≤ c.toNat && c.toNat ≤ 0x7E && c != '-'

/-- Whether a label is well-formed: words with single blanks between them, none in front. -/
def isLabel (cs : List Char) : Bool :=
  go true cs
where
  /-- `afterBlank`: no blank may come here. -/
  go : Bool → List Char → Bool
    | _, [] => true
    | afterBlank, c :: cs =>
      if isLabelChar c then go false cs
      else (c == ' ' || c == '\t') && !afterBlank && go true cs

/-- Takes a given text off the end. -/
def dropSuffix? (suffix cs : List Char) : Option (List Char) :=
  if suffix.isSuffixOf cs then some (cs.take (cs.length - suffix.length)) else none

/-! ### Data -/

/-- Joins the lines of the data.  `n` bounds their number. -/
def joinLines? : Nat → List Char → Option (List Char)
  | 0, _ => none
  | n + 1, cs =>
    match cs.drop 64 with
    | [] => some ((dropLastLineEnd? cs).getD cs)
    | rest => do
      let rest ← dropLineEnd? rest
      let more ← joinLines? n rest
      some (cs.take 64 ++ more)

/-- The data between two boundaries, which is not empty. -/
def data? (cs : List Char) : Option Bytes := do
  let digits ← joinLines? (cs.length + 1) cs
  if digits.isEmpty then none else Base64.decode? digits

/-- Reads armoured text that ends with its second boundary. -/
def read? (cs : List Char) : Option Armour := do
  let cs ← skipPreamble? cs
  let cs := cs.drop opening.length
  let label := cs.takeWhile (· != '-')
  let rest := cs.dropWhile (· != '-')
  if !isLabel label || !dashes.isPrefixOf rest then none
  else
    let body ← dropLineEnd? (rest.drop dashes.length)
    let body ← dropSuffix? dashes ((dropLastLineEnd? body).getD body)
    let body ← dropSuffix? label body
    let body ← dropSuffix? closing body
    let body ← dropLastLineEnd? body
    let data ← data? body
    some ⟨String.ofList label, data⟩

/-- Reads armoured text with white space around it. -/
def decode? (text : String) : Option Armour := read? (Text.trim text.toList)

end SamlSeal.Pem
