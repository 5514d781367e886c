import SamlSeal.Xml.Character

/-!
# Names

* `WrittenName`: a name as it stands in markup, a prefix and a local part,
* `QName`: a name together with the namespace that it was resolved to.
-/

namespace SamlSeal.Xml

/-- A name as it stands in markup.  The prefix is empty when there is none. -/
structure WrittenName where
  pfx : String
  localName : String
  deriving DecidableEq, Repr

namespace WrittenName

/-- Whether a word starts as a name has to. -/
def startsName : List Char → Bool
  | [] => false
  | c :: _ => isNameStart c

/-- Splits a word at its colon.  There is at most one, the local part is not empty, and both parts
start as names do; in front of the colon nothing has to stand. -/
def ofWord? (word : List Char) : Option WrittenName :=
  match word.span (· != ':') with
  | (name, []) => if startsName name then some ⟨"", String.ofList name⟩ else none
  | (front, _ :: name) =>
    if (front.isEmpty || startsName front) && startsName name && !name.contains ':' then
      some ⟨String.ofList front, String.ofList name⟩
    else none

/-- Reads the name at the start of a text. -/
def read? (cs : List Char) : Option (WrittenName × List Char) :=
  (ofWord? (cs.takeWhile isNameChar)).map fun name => (name, cs.dropWhile isNameChar)

end WrittenName

/-- A name with the namespace it belongs to. -/
structure QName where
  /-- The prefix in front of the name, if any. -/
  pfx : Option String
  localName : String
  /-- The namespace, if the name has one. -/
  uri : Option String
  deriving DecidableEq, Repr

namespace QName

/-- A name without prefix and namespace. -/
def plain (name : String) : QName := ⟨none, name, none⟩

/-- The name as it is written: an empty prefix is not written. -/
def qualified (name : QName) : String :=
  match name.pfx with
  | some p => if p = "" then name.localName else p ++ ":" ++ name.localName
  | none => name.localName

end QName

end SamlSeal.Xml
