/-!
# Faults

A document, a key or a message can fail the rules of the signature profile in a fixed number of
ways.  `Fault` lists them as causes, each with the data that explains it, and `Fault.message` is
the one place where a cause becomes a sentence.
-/

namespace SamlSeal

/-- Why a document, a key or a message was refused. -/
inductive Fault where
  /-- The document element carries no signature. -/
  | unsignedMessage
  /-- A reference does not name the element that holds its signature. -/
  | unlinkedReference (uri id : String)
  /-- A reference has no list of transforms. -/
  | noTransforms
  /-- A reference has some other number of transforms than two. -/
  | transformCount (found : Nat)
  /-- A transform stands where the profile wants another one. -/
  | unexpectedTransform (uri : String)
  | unknownDigest (uri : String)
  | unknownSignature (uri : String)
  | unknownCanonicalization (uri : String)
  /-- The text is not a well-formed, namespace-correct XML document. -/
  | malformedXml
  /-- The bytes of a document are not UTF-8. -/
  | xmlNotUtf8
  /-- A node that has to be an element is something else, or does not exist. -/
  | notAnElement (node : Nat)
  | noRootElement
  /-- A signature is not inside an element. -/
  | orphanSignature
  /-- Signed information has several references. -/
  | referenceCount (found : Nat)
  | missingElement (name : String)
  /-- An element that names an algorithm has no `Algorithm` attribute. -/
  | missingAlgorithm (element : String)
  /-- The text of a signature value is not base64. -/
  | malformedSignatureValue
  /-- The modulus is too short for the padding of the chosen hash. -/
  | messageTooLong
  /-- The public half of a private key does not undo the private half. -/
  | inconsistentKey
  | privateKeyRequired
  | malformedPublicKey
  | malformedPrivateKey
  /-- The bytes of a textual key are not UTF-8. -/
  | pemNotUtf8
  | malformedPem
  | unexpectedPemLabel (expected found : String)
  | unsupportedPemLabel (label : String)
  /-- A key file is neither text nor one of the two binary forms. -/
  | unknownKeyFormat (path : String)
  /-- A node to be written in canonical form does not exist. -/
  | unknownNode (node : Nat)
  /-- A file could not be read or written, for the given reason. -/
  | file (path : Option String) (reason : String)
  deriving DecidableEq, Repr

namespace Fault

/-- The sentence that reports a fault. -/
def message : Fault → String
  | unsignedMessage => "SAML message is unsigned"
  | unlinkedReference uri id =>
    "signed reference URI " ++ uri ++ " does not point to the parent " ++ id
  | noTransforms => "unsupported transform: Reference has no Transforms"
  | transformCount found => "unsupported transform: expected 2 transforms, found " ++ toString found
  | unexpectedTransform uri => "unsupported transform: unexpected digest transform " ++ uri
  | unknownDigest uri => "unsupported algorithm: digest algorithm: " ++ uri
  | unknownSignature uri => "unsupported algorithm: signature algorithm: " ++ uri
  | unknownCanonicalization uri => "unsupported algorithm: C14N: " ++ uri
  | malformedXml => "XML parsing error"
  | xmlNotUtf8 => "XML parsing error: invalid UTF-8"
  | notAnElement node => "invalid XML structure: node " ++ toString node ++ " is not an element"
  | noRootElement => "invalid XML structure: document has no root element"
  | orphanSignature => "invalid XML structure: Signature has no parent element"
  | referenceCount found =>
    "invalid XML structure: SignedInfo has " ++ toString found ++
      " References, expected exactly one"
  | missingElement name => "missing required element: " ++ name
  | missingAlgorithm element => "missing required attribute: Algorithm on " ++ element
  | malformedSignatureValue => "base64 decode error: SignatureValue"
  | messageTooLong =>
    "cryptographic error: RSA signing failed: signature error: message too long"
  | inconsistentKey => "cryptographic error: RSA signing failed: signature error: internal error"
  | privateKeyRequired => "key error: signing requires a private key"
  | malformedPublicKey => "key error: failed to parse RSA SPKI"
  | malformedPrivateKey => "key error: failed to parse RSA PKCS#8 key"
  | pemNotUtf8 => "key error: invalid PEM encoding"
  | malformedPem => "key error: failed to decode PEM"
  | unexpectedPemLabel expected found =>
    "key error: expected " ++ expected ++ " PEM label, got: " ++ found
  | unsupportedPemLabel label => "key error: unsupported PEM label: " ++ label
  | unknownKeyFormat path => "key error: unable to detect key format of " ++ path
  | unknownNode node => "canonicalization error: node " ++ toString node ++ " does not exist"
  | file none reason => "I/O error: " ++ reason
  | file (some path) reason => "I/O error: " ++ path ++ ": " ++ reason

end Fault

end SamlSeal
