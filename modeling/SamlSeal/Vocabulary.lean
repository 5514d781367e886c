/-!
# Vocabulary of the signature profile

The namespaces, algorithm identifiers and element names that a signed SAML message uses.  All of
them are compared literally, upper and lower case kept apart.
-/

namespace SamlSeal

/-! ### Namespaces -/

namespace Namespace

/-- XML Signature. -/
def dsig : String := "http://www.w3.org/2000/09/xmldsig#"

/-- SAML 2.0 assertions. -/
def samlAssertion : String := "urn:oasis:names:tc:SAML:2.0:assertion"

/-- The namespace that the prefix `xml` always stands for. -/
def xml : String := "http://www.w3.org/XML/1998/namespace"

/-- The namespace of namespace declarations; nothing may be bound to it. -/
def xmlns : String := "http://www.w3.org/2000/xmlns/"

end Namespace

/-! ### Algorithm identifiers -/

namespace Algorithm

def sha1 : String := "http://www.w3.org/2000/09/xmldsig#sha1"
def sha256 : String := "http://www.w3.org/2001/04/xmlenc#sha256"
def rsaSha1 : String := "http://www.w3.org/2000/09/xmldsig#rsa-sha1"
def rsaSha256 : String := "http://www.w3.org/2001/04/xmldsig-more#rsa-sha256"

/-- The transform that leaves the signature out of what it signs. -/
def enveloped : String := "http://www.w3.org/2000/09/xmldsig#enveloped-signature"

/-- Exclusive canonical form without comments. -/
def exclusive : String := "http://www.w3.org/2001/10/xml-exc-c14n#"

/-- Exclusive canonical form that keeps comments. -/
def exclusiveWithComments : String := "http://www.w3.org/2001/10/xml-exc-c14n#WithComments"

end Algorithm

/-! ### Element and attribute names -/

namespace ElementName

def assertion : String := "Assertion"
def signature : String := "Signature"
def signedInfo : String := "SignedInfo"
def canonicalizationMethod : String := "CanonicalizationMethod"
def signatureMethod : String := "SignatureMethod"
def signatureValue : String := "SignatureValue"
def reference : String := "Reference"
def transforms : String := "Transforms"
def transform : String := "Transform"
def digestMethod : String := "DigestMethod"
def digestValue : String := "DigestValue"
def inclusiveNamespaces : String := "InclusiveNamespaces"

end ElementName

namespace AttributeName

/-- The identifier of a SAML element, in capitals. -/
def id : String := "ID"
def issueInstant : String := "IssueInstant"
def uri : String := "URI"
def algorithm : String := "Algorithm"
def prefixList : String := "PrefixList"

end AttributeName

end SamlSeal
