import SamlSeal.CommandLine.Command
import SamlSeal.Key.Loading
import SamlSeal.Signature.Sign
import SamlSeal.Signature.Verify
import SamlSeal.Xml.Reading
import SamlSeal.Xml.Writing

/-!
# Carrying out commands

`Command.run` says what a command does, given the contents of files and, for signing, a fresh
identifier and the time.  The result is a `Report`: what to print, what to write, and the exit code.
-/

namespace SamlSeal

open Xml

/-- The effects of a command. -/
structure Report where
  exitCode : UInt32
  /-- What is printed. -/
  output : String
  /-- A fault, which is printed as an error. -/
  fault : Option Fault
  /-- A file to be written, with its path. -/
  file : Option (String × String)
  /-- What was reported on the way. -/
  events : List Event

namespace Report

def success (output : String) : Report := ⟨0, output, none, none, []⟩

def failure (fault : Fault) (events : List Event) : Report := ⟨1, "", some fault, none, events⟩

/-- A command line that is no command. -/
def usage : Report := ⟨2, "", none, none, []⟩

/-- The report when its file could not be written. -/
def unwritten (r : Report) (path reason : String) : Report :=
  failure (.file (some path) reason) r.events

end Report

/-- Files, by their paths: contents, or the reason why there are none. -/
abbrev Files := String → Except String Bytes

namespace Files

/-- The document in a file. -/
def document (files : Files) (path : String) : Except Fault Document :=
  match files path with
  | .ok bs => Document.parseBytes bs
  | .error reason => .error (.file (some path) reason)

/-- The key in a file. -/
def key (files : Files) (path : String) : Except Fault Key :=
  match files path with
  | .ok bs => Key.ofFile path bs
  | .error reason => .error (.file none reason)

end Files

namespace Command

/-- The files that a command reads. -/
def inputs : Command → List String
  | verify file key _ => [file, key]
  | sign template key _ _ => [template, key]
  | _ => []

def versionText : String := "samlsig 0.1.0\n"

def helpText : String :=
  String.intercalate "\n"
    ["SAML 2.0 XML Signature verification and signing",
     "",
     "Usage: samlsig verify FILE --key KEY [--verbose]",
     "       samlsig sign TEMPLATE --key KEY [--output FILE] [--verbose]",
     "       samlsig info",
     ""]

/-- The list of supported algorithms and key formats. -/
def infoText : String :=
  String.intercalate "\n"
    ["samlsig: SAML 2.0 XML Signature profile",
     "",
     "Digest algorithms:",
     "  " ++ Algorithm.sha1,
     "  " ++ Algorithm.sha256,
     "",
     "Signature algorithms (RSA PKCS#1 v1.5):",
     "  " ++ Algorithm.rsaSha1,
     "  " ++ Algorithm.rsaSha256,
     "",
     "Transforms:",
     "  " ++ Algorithm.enveloped,
     "  " ++ Algorithm.exclusive,
     "  " ++ Algorithm.exclusiveWithComments,
     "",
     "Key formats:",
     "  SPKI public keys, PKCS#8 private keys (PEM or DER)",
     ""]

/-- A document as a file of its own. -/
def framed (d : Document) : String :=
  "<?xml version=\"1.0\" encoding=\"UTF-8\"?>\n" ++ d.toXml ++ "\n"

/-- The document and the key that a command works with. -/
def loaded (files : Files) (path keyPath : String) : Except Fault (Document × Key) := do
  let d ← files.document path
  let key ← files.key keyPath
  .ok (d, key)

/-- What verifying a file does. -/
def runVerify (files : Files) (path keyPath : String) (verbose : Bool) : Report :=
  match loaded files path keyPath with
  | .error e => .failure e []
  | .ok (d, key) =>
    let checked := SamlSeal.verify ⟨key, verbose⟩ d
    let events := .verifyingFile path :: checked.events
    match checked.outcome with
    | .error e => .failure e events
    | .ok true => ⟨0, "OK\n", none, none, events⟩
    | .ok false => ⟨1, "INVALID\n", none, none, events⟩

/-- What signing a file does. -/
def runSign (files : Files) (id issueInstant path keyPath : String) (output : Option String)
    (verbose : Bool) : Report :=
  match loaded files path keyPath with
  | .error e => .failure e []
  | .ok (d, key) =>
    let signing := SamlSeal.sign ⟨key, verbose⟩ d id issueInstant
    let events := .signingTemplate path :: signing.trace.events
    match signing.trace.outcome, output with
    | .error e, _ => .failure e events
    | .ok (), none => ⟨0, framed signing.document, none, none, events⟩
    | .ok (), some target => ⟨0, "", none, some (target, framed signing.document), events⟩

/-- What a command does. -/
def run (files : Files) (id issueInstant : String) : Command → Report
  | verify file key verbose => runVerify files file key verbose
  | sign template key output verbose => runSign files id issueInstant template key output verbose
  | info => .success infoText
  | version => .success versionText
  | help => .success helpText

end Command

/-- What a command line does. -/
def runArguments (files : Files) (id issueInstant : String) (args : List String) : Report :=
  match Command.parse? args with
  | some c => c.run files id issueInstant
  | none => .usage

end SamlSeal
