import SamlSeal.Xml.CharacterData
import SamlSeal.Xml.Name

/-!
# Tokens of markup

A document is cut into tags, stretches of text, literal sections, comments and processing
instructions.  `Token.next?` reads the token at the start of a text and returns what comes after
it; `Token.all?` reads a whole text.  A token of a start tag also keeps the text from its `<` on,
because names are recovered from there.
-/

namespace SamlSeal.Xml

/-- The text before the first occurrence of `stop`, and the text after that occurrence. -/
def splitAt? (stop : List Char) : List Char → Option (List Char × List Char)
  | [] => if stop.isEmpty then some ([], []) else none
  | c :: cs =>
    if stop.isPrefixOf (c :: cs) then some ([], (c :: cs).drop stop.length)
    else (splitAt? stop cs).map fun r => (c :: r.1, r.2)

/-- Whether `part` occurs in a text. -/
def occursIn (part : List Char) : List Char → Bool
  | [] => part.isEmpty
  | c :: cs => part.isPrefixOf (c :: cs) || occursIn part cs

/-- A start tag: its name and what it says in attribute position, declarations included. -/
structure Tag where
  name : WrittenName
  attributes : List (WrittenName × String)
  deriving DecidableEq, Repr

/-- A piece of markup. -/
inductive Token where
  /-- A start tag, or an element without content when `closed`.  `source` is the text from its `<`
  to the end of the document. -/
  | start (source : List Char) (tag : Tag) (closed : Bool)
  /-- An end tag. -/
  | stop (name : WrittenName)
  /-- Text between two pieces of markup, with references as they stand. -/
  | text (raw : List Char)
  /-- A literal section. -/
  | literal (raw : List Char)
  | comment (content : String)
  | instruction (target : String) (data : Option String)
  deriving DecidableEq, Repr

/-! ### Attributes -/

/-- Reads a name, an equals sign and a quoted value; there may be space around the sign.  The value
is returned as it stands. -/
def quoted? (cs : List Char) : Option (WrittenName × List Char × List Char) := do
  let (name, cs) ← WrittenName.read? cs
  match cs.dropWhile isSpace with
  | '=' :: cs =>
    match cs.dropWhile isSpace with
    | quote :: cs =>
      if quote = '"' ∨ quote = '\'' then
        let inside := fun c => c != quote && c != '<'
        match cs.dropWhile inside with
        | c :: rest =>
          let raw := cs.takeWhile inside
          if c = quote ∧ raw.all isChar then some (name, raw, rest) else none
        | [] => none
      else none
    | [] => none
  | _ => none

/-- Reads the attributes of a start tag up to its end, which may close the element at once.  Each
attribute has space in front.  At most `n - 1` attributes are read. -/
def attributes? : Nat → List Char → Option (List (WrittenName × String) × Bool × List Char)
  | 0, _ => none
  | n + 1, cs =>
    match cs.dropWhile isSpace with
    | '>' :: rest => some ([], false, rest)
    | '/' :: '>' :: rest => some ([], true, rest)
    | rest =>
      if cs.head?.any isSpace then do
        let (name, raw, rest) ← quoted? rest
        let value ← attributeValue raw
        let (more, closed, rest) ← attributes? n rest
        some ((name, String.ofList value) :: more, closed, rest)
      else none

namespace Token

/-! ### One token -/

/-- What stands in `raw`, if it holds characters of XML only. -/
def checked? (raw : List Char) : Option String :=
  if raw.all isChar then some (String.ofList raw) else none

/-- Reads a comment after its `<!--`.  Two hyphens in a row end it, so it cannot end in a third. -/
def comment? (cs : List Char) : Option (Token × List Char) := do
  let (raw, rest) ← splitAt? ['-', '-', '>'] cs
  let content ← checked? raw
  if occursIn ['-', '-'] raw || raw.getLast? == some '-' then none
  else some (comment content, rest)

/-- Reads a literal section after its `<![CDATA[`. -/
def literal? (cs : List Char) : Option (Token × List Char) := do
  let (raw, rest) ← splitAt? [']', ']', '>'] cs
  let _ ← checked? raw
  some (literal raw, rest)

/-- Reads a processing instruction after its `<?`.  What looks like an XML declaration is none. -/
def instruction? (cs : List Char) : Option (Token × List Char) := do
  let target := cs.takeWhile isNameChar
  if ['x', 'm', 'l', ' '].isPrefixOf cs || !WrittenName.startsName target then none
  else
    let (raw, rest) ← splitAt? ['?', '>'] ((cs.dropWhile isNameChar).dropWhile isSpace)
    let data ← checked? raw
    some (instruction (String.ofList target) (if raw.isEmpty then none else some data), rest)

/-- Reads an end tag after its `</`. -/
def stop? (cs : List Char) : Option (Token × List Char) := do
  let (name, cs) ← WrittenName.read? cs
  match cs.dropWhile isSpace with
  | '>' :: rest => some (stop name, rest)
  | _ => none

/-- Reads a start tag after its `<`. -/
def start? (cs : List Char) : Option (Token × List Char) := do
  let (name, rest) ← WrittenName.read? cs
  let (attributes, closed, rest) ← attributes? cs.length rest
  some (start ('<' :: cs) ⟨name, attributes⟩ closed, rest)

/-- Reads the text up to the next piece of markup. -/
def text? (cs : List Char) : Option (Token × List Char) :=
  let raw := cs.takeWhile (· != '<')
  if raw.all isChar && !occursIn [']', ']', '>'] raw then
    some (text raw, cs.dropWhile (· != '<'))
  else none

/-- Reads the token at the start of a text that is not empty. -/
def next? : List Char → Option (Token × List Char)
  | '<' :: '!' :: '-' :: '-' :: cs => comment? cs
  | '<' :: '!' :: '[' :: 'C' :: 'D' :: 'A' :: 'T' :: 'A' :: '[' :: cs => literal? cs
  | '<' :: '!' :: _ => none
  | '<' :: '?' :: cs => instruction? cs
  | '<' :: '/' :: cs => stop? cs
  | '<' :: cs => start? cs
  | cs => text? cs

/-! ### All tokens -/

/-- Cuts a text into at most `n` tokens. -/
def atMost? : Nat → List Char → Option (List Token)
  | _, [] => some []
  | 0, _ :: _ => none
  | n + 1, c :: cs => do
    let (t, rest) ← next? (c :: cs)
    let ts ← atMost? n rest
    some (t :: ts)

/-- Cuts a text into tokens.  A token has at least one character, so there are no more tokens than
characters. -/
def all? (cs : List Char) : Option (List Token) := atMost? cs.length cs

end Token

end SamlSeal.Xml
