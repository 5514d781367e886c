/-!
# Escaping

A text that stands in markup gives some of its characters as references, so that a reader gets the
same text back.  Which characters these are depends on the place:

* `Escape.text`: character data of an element,
* `Escape.value`: an attribute value between double quotes; white space is written as references
  too, because a reader turns literal tabs and line ends in a value into spaces,
* `Escape.instruction`: the data of a processing instruction in canonical form.
-/

namespace SamlSeal.Escape

/-- How one character of an element's character data is written. -/
def textChar : Char → List Char
  | '&' => ['&', 'a', 'm', 'p', ';']
  | '<' => ['&', 'l', 't', ';']
  | '>' => ['&', 'g', 't', ';']
  | '\r' => ['&', '#', 'x', 'D', ';']
  | c => [c]

/-- How one character of an attribute value is written. -/
def valueChar : Char → List Char
  | '&' => ['&', 'a', 'm', 'p', ';']
  | '<' => ['&', 'l', 't', ';']
  | '"' => ['&', 'q', 'u', 'o', 't', ';']
  | '\t' => ['&', '#', 'x', '9', ';']
  | '\n' => ['&', '#', 'x', 'A', ';']
  | '\r' => ['&', '#', 'x', 'D', ';']
  | c => [c]

/-- How one character of the data of a processing instruction is written. -/
def instructionChar : Char → List Char
  | '\r' => ['&', '#', 'x', 'D', ';']
  | c => [c]

/-- Character data of an element as written. -/
def text (cs : List Char) : List Char := cs.flatMap textChar

/-- An attribute value as written between double quotes. -/
def value (cs : List Char) : List Char := cs.flatMap valueChar

/-- The data of a processing instruction as written in canonical form. -/
def instruction (cs : List Char) : List Char := cs.flatMap instructionChar

@[simp] theorem text_append (a b : List Char) : text (a ++ b) = text a ++ text b := by
  simp [text]

@[simp] theorem value_append (a b : List Char) : value (a ++ b) = value a ++ value b := by
  simp [value]

@[simp] theorem instruction_append (a b : List Char) :
    instruction (a ++ b) = instruction a ++ instruction b := by
  simp [instruction]

end SamlSeal.Escape
