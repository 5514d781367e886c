/-!
# Names in a start tag

`StartTag.scan` reads off the names that are written in a start tag: the name of the element and
the names of its attributes, namespace declarations left out.  It looks for nothing but white
space, quotes, `=`, `/` and `>`, so it takes any text and never reads past the tag.
-/

namespace SamlSeal.Xml

/-- The names written in a start tag. -/
structure StartTag where
  name : String
  /-- The names of the attributes in order, without namespace declarations. -/
  attributes : List String
  deriving DecidableEq, Repr

namespace StartTag

/-- White space within the basic characters, the form feed included. -/
def isGap (c : Char) : Bool :=
  c == ' ' || c == '\t' || c == '\n' || c == '\x0c' || c == '\r'

/-- What a tag name ends at. -/
def endsName (c : Char) : Bool := isGap c || c == '/' || c == '>'

/-- Whether a name in attribute position makes a namespace declaration: it is `xmlns`, or starts
with `xmlns:`. -/
def isDeclaration (name : List Char) : Bool :=
  name == ['x', 'm', 'l', 'n', 's'] || ['x', 'm', 'l', 'n', 's', ':'].isPrefixOf name

/-- Skips an equals sign and a quoted value, with the gaps in front of each. -/
def skipValue? (cs : List Char) : Option (List Char) :=
  match cs.dropWhile isGap with
  | '=' :: cs =>
    match cs.dropWhile isGap with
    | quote :: cs =>
      if quote = '"' ∨ quote = '\'' then
        match cs.dropWhile (· != quote) with
        | _ :: rest => some rest
        | [] => none
      else none
    | [] => none
  | _ => none

/-- Reads attribute names up to the end of the tag.  At most `n - 1` attributes are read. -/
def scanAttributes : Nat → List Char → Option (List String)
  | 0, _ => none
  | n + 1, cs =>
    match cs.dropWhile isGap with
    | [] => none
    | c :: cs =>
      if c = '>' ∨ c = '/' then some []
      else do
        let inName := fun c => c != '=' && !isGap c
        let name := (c :: cs).takeWhile inName
        let rest ← skipValue? ((c :: cs).dropWhile inName)
        let names ← scanAttributes n rest
        some (if isDeclaration name then names else String.ofList name :: names)

/-- Reads the names of the start tag at the beginning of a text. -/
def scan : List Char → Option StartTag
  | '<' :: cs =>
    (scanAttributes cs.length (cs.dropWhile (!endsName ·))).map
      (⟨String.ofList (cs.takeWhile (!endsName ·)), ·⟩)
  | _ => none

end StartTag

end SamlSeal.Xml
