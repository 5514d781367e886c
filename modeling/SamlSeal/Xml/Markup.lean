import SamlSeal.Xml.Forest
import SamlSeal.Xml.Token

/-!
# Markup

The tree of a document as its tags nest, with all names still as they are written.
`Markup.ofTokens?` builds it from the last token backwards: an end tag opens a level that is filled
up to the matching start tag.  `Markup.read?` reads a whole document: an optional byte order mark,
an optional XML declaration, and one element with comments, processing instructions and white space
around it.
-/

namespace SamlSeal.Xml

/-- A node of the markup of a document. -/
inductive Item where
  /-- An element; `source` is the text from its start tag on. -/
  | element (source : List Char) (tag : Tag)
  | text (content : String)
  | comment (content : String)
  | instruction (target : String) (data : Option String)
  deriving DecidableEq, Repr

abbrev Markup := Forest Item

namespace Markup

/-! ### Nesting -/

/-- Puts a text in front of some markup.  Texts that touch are one text. -/
def consText (content : List Char) : Markup → Markup
  | .node (.text s) inner next => .node (.text (String.ofList content ++ s)) inner next
  | f => .node (.text (String.ofList content)) .nil f

/-- Markup that was read from its end up to some token. -/
structure Partial where
  /-- What comes after the token on the same level. -/
  here : Markup
  /-- The elements that end later and start earlier, innermost first: the name in the end tag, and
  what comes after the element. -/
  around : List (WrittenName × Markup)

/-- Takes one more token in front of what was read.  Outside the document element there is no text
but white space, which leaves no node. -/
def Partial.cons? (t : Token) (p : Partial) : Option Partial :=
  match t with
  | .stop name => some ⟨.nil, (name, p.here) :: p.around⟩
  | .start source tag true => some { p with here := .node (.element source tag) .nil p.here }
  | .start source tag false =>
    match p.around with
    | (name, next) :: around =>
      if name = tag.name then some ⟨.node (.element source tag) p.here next, around⟩ else none
    | [] => none
  | .text raw =>
    if p.around.isEmpty then if raw.all isSpace then some p else none
    else (textValue raw).map fun s => { p with here := consText s p.here }
  | .literal raw =>
    if p.around.isEmpty then none
    else some { p with here := consText (sectionValue raw) p.here }
  | .comment content => some { p with here := .node (.comment content) .nil p.here }
  | .instruction target data =>
    some { p with here := .node (.instruction target data) .nil p.here }

/-- Reads tokens from the last to the first. -/
def Partial.ofTokens? (ts : List Token) : Option Partial :=
  ts.foldr (fun t p => p.bind (Partial.cons? t)) (some ⟨.nil, []⟩)

/-- Whether a node is an element. -/
def isElement : Item → Bool
  | .element .. => true
  | _ => false

/-- The markup of a list of tokens, if every element is closed and exactly one is outermost. -/
def ofTokens? (ts : List Token) : Option Markup :=
  match Partial.ofTokens? ts with
  | some ⟨f, []⟩ => if f.roots.countP isElement = 1 then some f else none
  | _ => none

/-! ### Whole documents -/

/-- White space between the parts of an XML declaration.  None is needed in front of its end. -/
def skipSpaces? (cs : List Char) : Option (List Char) :=
  if cs.head?.any isSpace then some (cs.dropWhile isSpace)
  else if cs.isEmpty || ['?', '>'].isPrefixOf cs then some cs
  else none

/-- Skips a part of an XML declaration that starts with the given word, and the space after it. -/
def skipPart? (word cs : List Char) : Option (List Char) := do
  if word.isPrefixOf cs then
    let (_, _, rest) ← quoted? cs
    skipSpaces? rest
  else none

/-- Skips an XML declaration after its `<?xml `: a version, then an encoding and a standalone
declaration if there are any. -/
def skipDeclaration? (cs : List Char) : Option (List Char) := do
  let cs ← skipPart? "version".toList (cs.dropWhile isSpace)
  let cs ← if "encoding".toList.isPrefixOf cs then skipPart? "encoding".toList cs else some cs
  let cs ← if "standalone".toList.isPrefixOf cs then (quoted? cs).map (·.2.2) else some cs
  match cs.dropWhile isSpace with
  | '?' :: '>' :: rest => some rest
  | _ => none

/-- Skips a byte order mark. -/
def skipMark : List Char → List Char
  | c :: cs => if c = '\uFEFF' then cs else c :: cs
  | [] => []

/-- Reads a document. -/
def read? (cs : List Char) : Option Markup := do
  let cs := skipMark cs
  let cs ← if "<?xml ".toList.isPrefixOf cs then skipDeclaration? (cs.drop 6) else some cs
  let ts ← Token.all? cs
  ofTokens? ts

end Markup

end SamlSeal.Xml
