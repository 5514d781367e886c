import SamlSeal.Encoding.Der
import SamlSeal.Encoding.Pem
import SamlSeal.Key.Basic

/-!
# Loading keys

Public keys come as a subject public key info, private keys in PKCS#8 form, both either binary or as
armoured text.

* `Key.ofSpki`, `Key.ofPkcs8`: the binary forms,
* `Key.ofSpkiPem`, `Key.ofPkcs8Pem`: armoured text of a known kind,
* `Key.ofPem`: armoured text, whose label tells the kind,
* `Key.ofFile`: a file, whose first bytes tell the form.
-/

namespace SamlSeal.Key

/-! ### Binary forms -/

/-- The identifier of RSA with its empty parameters. -/
def rsaAlgorithm : Bytes :=
  [0x06, 0x09, 0x2a, 0x86, 0x48, 0x86, 0xf7, 0x0d, 0x01, 0x01, 0x01, 0x05, 0x00]

/-- Reads the identifier of RSA. -/
def skipAlgorithm? (bs : Bytes) : Option Bytes := do
  let (content, rest) ← Der.element? Der.sequenceTag bs
  if content = rsaAlgorithm then some rest else none

/-- The modulus and the exponent of a public key. -/
def publicParts? (bs : Bytes) : Option Rsa.PublicKey := do
  let content ← Der.only? Der.sequenceTag bs
  let (modulus, rest) ← Der.integer? content
  let (exponent, rest) ← Der.integer? rest
  if rest.isEmpty then Rsa.PublicKey.ofParts? modulus exponent else none

/-- Reads a subject public key info: the algorithm, and the key in a bit string. -/
def spki? (bs : Bytes) : Option Rsa.PublicKey := do
  let content ← Der.only? Der.sequenceTag bs
  let rest ← skipAlgorithm? content
  let bits ← Der.only? Der.bitStringTag rest
  let inner ← Der.wholeBytes? bits
  publicParts? inner

/-- The numbers of a private key: a version, which is zero, then modulus, exponents, the two
factors, and three numbers that only help to compute. -/
def privateParts? (bs : Bytes) : Option Rsa.PrivateKey := do
  let content ← Der.only? Der.sequenceTag bs
  let (version, rest) ← Der.integer? content
  let (modulus, rest) ← Der.integer? rest
  let (exponent, rest) ← Der.integer? rest
  let (secret, rest) ← Der.integer? rest
  let (p, rest) ← Der.integer? rest
  let (q, rest) ← Der.integer? rest
  let (_, rest) ← Der.integer? rest
  let (_, rest) ← Der.integer? rest
  let (_, rest) ← Der.integer? rest
  if version = 0 ∧ rest.isEmpty then Rsa.PrivateKey.ofParts? modulus exponent secret p q else none

/-- Reads the public key among the optional fields of a private key, which has number one, and skips
the fields before it.  `n` bounds the number of fields. -/
def publicField? : Nat → Bytes → Option (Bool × Bytes)
  | 0, _ => none
  | _ + 1, [] => some (false, [])
  | n + 1, tag :: bs =>
    if !Der.isTag tag then none
    else if !Der.isField tag || 1 < Der.fieldNumber tag then some (false, tag :: bs)
    else do
      let (_, content, rest) ← Der.any? (tag :: bs)
      if Der.fieldNumber tag = 0 then publicField? n rest
      else if Der.isConstructed tag then none
      else
        let _ ← Der.wholeBytes? content
        some (true, rest)

/-- Whether some bytes are fields that each hold one element.  `n` bounds the number of fields. -/
def areFields : Nat → Bytes → Bool
  | _, [] => true
  | 0, _ => false
  | n + 1, bs =>
    match Der.any? bs with
    | none => false
    | some (tag, content, rest) =>
      Der.isField tag && Der.isConstructed tag && areFields n rest &&
        match Der.any? content with
        | none => false
        | some (inner, _, after) => Der.isTag inner && after.isEmpty

/-- Reads the PKCS#8 form: a version, the algorithm, the key in a string of bytes, and optional
fields.  Version one, and no other, has a public key among the fields. -/
def pkcs8? (bs : Bytes) : Option Rsa.PrivateKey := do
  let content ← Der.only? Der.sequenceTag bs
  let (version, rest) ← Der.integer? content
  let rest ← skipAlgorithm? rest
  let (inner, rest) ← Der.element? Der.octetStringTag rest
  let (hasPublic, rest) ← publicField? (rest.length + 1) rest
  if version = (if hasPublic then 1 else 0) ∧ areFields rest.length rest then privateParts? inner
  else none

/-- The public key in a subject public key info. -/
def ofSpki (bs : Bytes) : Except Fault Key :=
  match spki? bs with
  | some key => .ok (.publicKey key)
  | none => .error .malformedPublicKey

/-- The private key in PKCS#8 form. -/
def ofPkcs8 (bs : Bytes) : Except Fault Key :=
  match pkcs8? bs with
  | some key => .ok (.privateKey key)
  | none => .error .malformedPrivateKey

/-! ### Armoured text -/

def publicLabel : String := "PUBLIC KEY"
def privateLabel : String := "PRIVATE KEY"

/-- What armoured text holds. -/
def armour (bs : Bytes) : Except Fault Pem.Armour :=
  match String.fromUTF8? ⟨bs.toArray⟩ with
  | none => .error .pemNotUtf8
  | some text =>
    match Pem.decode? text with
    | some a => .ok a
    | none => .error .malformedPem

/-- What armoured text with a given label holds. -/
def armoured (label : String) (bs : Bytes) : Except Fault Bytes := do
  let a ← armour bs
  if a.label = label then .ok a.data else .error (.unexpectedPemLabel label a.label)

def ofSpkiPem (bs : Bytes) : Except Fault Key := do
  ofSpki (← armoured publicLabel bs)

def ofPkcs8Pem (bs : Bytes) : Except Fault Key := do
  ofPkcs8 (← armoured privateLabel bs)

/-- The key in armoured text, in the form that the label names. -/
def ofPem (bs : Bytes) : Except Fault Key := do
  let a ← armour bs
  if a.label = publicLabel then ofSpki a.data
  else if a.label = privateLabel then ofPkcs8 a.data
  else .error (.unsupportedPemLabel a.label)

/-! ### Files -/

/-- The bytes with which a file of armoured text starts. -/
def armourStart : Bytes := "-----BEGIN".toUTF8.data.toList

/-- The key in a file.  A file that does not start like armoured text is taken for a private key,
then for a public one. -/
def ofFile (path : String) (bs : Bytes) : Except Fault Key :=
  if armourStart.isPrefixOf bs then ofPem bs
  else match ofPkcs8 bs with
    | .ok key => .ok key
    | .error _ =>
      match ofSpki bs with
      | .ok key => .ok key
      | .error _ => .error (.unknownKeyFormat path)

end SamlSeal.Key
