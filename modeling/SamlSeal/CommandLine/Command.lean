/-!
# Commands

What can be asked for on the command line, and how it is written there:

```
verify FILE --key KEY [--verbose]
sign TEMPLATE --key KEY [--output FILE] [--verbose]
info
```

`Command.parse?` reads the arguments.  Options may stand before or after the file; `-k`, `-o` and
`-v` are short for the long names; a value follows its option directly, after `=`, or as the next
argument.
-/

namespace SamlSeal

/-- Something to be done. -/
inductive Command where
  | verify (file key : String) (verbose : Bool)
  | sign (template key : String) (output : Option String) (verbose : Bool)
  | info
  | version
  | help
  deriving DecidableEq, Repr

/-- An option of a command. -/
inductive Switch where
  | key
  | output
  | verbose
  | help
  deriving DecidableEq, Repr

namespace Switch

/-- The option with a given long name. -/
def ofName? : String → Option Switch
  | "key" => some key
  | "output" => some output
  | "verbose" => some verbose
  | "help" => some help
  | _ => none

/-- The option with a given letter. -/
def ofLetter? : Char → Option Switch
  | 'k' => some key
  | 'o' => some output
  | 'v' => some verbose
  | 'h' => some help
  | _ => none

/-- Whether an option has a value. -/
def takesValue : Switch → Bool
  | key | output => true
  | verbose | help => false

end Switch

/-- What stands in one argument, or in one argument and the next. -/
inductive Argument where
  /-- An option, with its value if it has one. -/
  | switch (s : Switch) (value : String)
  /-- Anything else. -/
  | plain (value : String)
  deriving DecidableEq, Repr

namespace Argument

/-- Whether an argument can only be an option. -/
def looksLikeSwitch (arg : String) : Bool :=
  match arg.toList with
  | '-' :: _ :: _ => true
  | _ => false

/-- The value of an option from the next argument. -/
def nextValue? : List String → Option (String × List String)
  | [] => none
  | value :: rest => if looksLikeSwitch value then none else some (value, rest)

/-- Reads letters after a hyphen.  An option with a value takes the rest of the letters for it, or
the next argument if there are none. -/
def letters? (rest : List String) : List Char → Option (List Argument × List String)
  | [] => some ([], rest)
  | c :: cs => do
    let s ← Switch.ofLetter? c
    if s.takesValue then
      match cs with
      | [] =>
        let (value, rest) ← nextValue? rest
        some ([.switch s value], rest)
      | '=' :: cs => some ([.switch s (String.ofList cs)], rest)
      | cs => some ([.switch s (String.ofList cs)], rest)
    else
      let (more, rest) ← letters? rest cs
      some (.switch s "" :: more, rest)

/-- Reads a long name after two hyphens. -/
def long? (name : List Char) (rest : List String) : Option (Argument × List String) := do
  let s ← Switch.ofName? (String.ofList (name.takeWhile (· != '=')))
  match name.dropWhile (· != '='), s.takesValue with
  | _ :: value, true => some (.switch s (String.ofList value), rest)
  | [], true =>
    let (value, rest) ← nextValue? rest
    some (.switch s value, rest)
  | [], false => some (.switch s "", rest)
  | _ :: _, false => none

/-- Reads arguments; `n` bounds their number.  After `--` all are plain, and nothing after a request
for help is read. -/
def all? : Nat → List String → Option (List Argument)
  | _, [] => some []
  | 0, _ => none
  | n + 1, arg :: rest => do
    let (found, rest) ←
      match arg.toList with
      | ['-', '-'] => some (rest.map .plain, [])
      | '-' :: '-' :: name => (long? name rest).map fun r => ([r.1], r.2)
      | '-' :: c :: cs => letters? rest (c :: cs)
      | _ => some ([.plain arg], rest)
    if found.contains (.switch .help "") then some found
    else
      let more ← all? n rest
      some (found ++ more)

end Argument

namespace Command

/-- The value of an option that is given at most once, and not as an empty text. -/
def single? (s : Switch) (args : List Argument) : Option (Option String) :=
  match args.filterMap (fun | .switch t v => if t = s then some v else none | .plain _ => none) with
  | [] => some none
  | [v] => if s.takesValue && v == "" then none else some (some v)
  | _ => none

/-- The only plain argument, which is not empty. -/
def file? (args : List Argument) : Option String :=
  match args.filterMap (fun | .plain v => some v | .switch .. => none) with
  | [v] => if v = "" then none else some v
  | _ => none

/-- The command of a name and its arguments. -/
def ofName? (name : String) (args : List Argument) : Option Command := do
  let key ← single? .key args
  let output ← single? .output args
  let verbose ← single? .verbose args
  match name with
  | "verify" => if output.isSome then none else some (verify (← file? args) (← key) verbose.isSome)
  | "sign" => some (sign (← file? args) (← key) output verbose.isSome)
  | "info" => if args.isEmpty then some info else none
  | _ => none

/-- The names of the commands. -/
def names : List String := ["verify", "sign", "info"]

/-- Whether help can be asked for on a topic: on everything, on a command, or on help itself. -/
def isTopic : List String → Bool
  | [] => true
  | [name] => names.contains name || name == "help"
  | _ => false

/-- Reads a command line, without the name of the program. -/
def parse? : List String → Option Command
  | [] => none
  | first :: rest =>
    if first = "--version" || ['-', 'V'].isPrefixOf first.toList then some version
    else if first = "--help" || ['-', 'h'].isPrefixOf first.toList then some help
    else if first = "help" then if isTopic rest then some help else none
    else if names.contains first then do
      let args ← Argument.all? rest.length rest
      if args.contains (.switch .help "") then some help else ofName? first args
    else none

end Command

end SamlSeal
