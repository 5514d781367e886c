import SamlSeal.CommandLine.Report
import SamlSeal.Signature.Stamp
import Std.Time.DateTime.Timestamp

/-!
# The program

Reads the files that a command asks for, carries it out, and prints and writes what it reports.
Events go to the error stream: all of them when asked to be verbose, else warnings only.
-/

namespace SamlSeal

/-- Why a file could not be read or written. -/
def fileReason : IO.Error → String
  | .noFileOrDirectory .. => "No such file or directory (os error 2)"
  | .permissionDenied .. => "Permission denied (os error 13)"
  | .inappropriateType .. => "Is a directory (os error 21)"
  | e => toString e

/-- The contents of a file, or why there are none. -/
def readFile (path : String) : IO (Except String Bytes) := do
  try
    let bytes ← IO.FS.readBinFile path
    return .ok bytes.data.toList
  catch e => return .error (fileReason e)

/-- Writes the file of a report, if there is one. -/
def Report.settle (r : Report) : IO Report := do
  match r.file with
  | none => return r
  | some (path, content) =>
    try
      IO.FS.writeFile path content
      return r
    catch e => return r.unwritten path (fileReason e)

/-- Whether a command asks for all events. -/
def Command.isVerbose : Command → Bool
  | verify _ _ verbose => verbose
  | sign _ _ _ verbose => verbose
  | _ => false

/-- An event as a line. -/
def Event.line (e : Event) : String :=
  e.level.name ++ " " ++ e.message ++
    String.join (e.fields.map fun f => " " ++ f.1 ++ "=" ++ f.2)

/-- Prints a report. -/
def Report.print (r : Report) (verbose : Bool) : IO UInt32 := do
  for e in r.events do
    if verbose || e.level == .warn then IO.eprintln e.line
  IO.print r.output
  if let some fault := r.fault then IO.eprintln ("Error: " ++ fault.message)
  return r.exitCode

/-- Carries out a command. -/
def Command.execute (c : Command) : IO UInt32 := do
  let contents ← c.inputs.mapM fun path => do return (path, ← readFile path)
  let files : Files := fun path => (contents.lookup path).getD (.error "")
  let random ← IO.getRandomBytes identifierBytes.toUSize
  let now ← Std.Time.Timestamp.now
  let millis := now.toMillisecondsSinceUnixEpoch.val.toNat
  let report := c.run files (identifier random.data.toList) (Instant.write millis)
  (← report.settle).print c.isVerbose

end SamlSeal

def main (args : List String) : IO UInt32 := do
  match SamlSeal.Command.parse? args with
  | some c => c.execute
  | none =>
    IO.eprintln "error: unrecognized arguments; try --help"
    return SamlSeal.Report.usage.exitCode
