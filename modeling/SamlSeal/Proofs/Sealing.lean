import SamlSeal.Proofs.Signing

/-!
# Sealing one site after the other

A message may carry two signatures that count, one of them inside what the other one signs.  Each of
them is put in by the same two steps, the digest and then the value.

* `Site.Seals`: what the two steps leave behind at any site,
* `Site.Placed.seals`: a digest and a value that were put in are accepted, and the site is where it
  was,
* `sign_seals`: signing a message is stamping it and sealing its own site,
* `verify_of_seals`: so an assertion can be sealed first and the message around it afterwards.
-/

namespace SamlSeal

open Xml

variable {ctx ctx' : Context} {d d' d₁ d₂ : Document} {site : Site} {key key' : Key}

/-! ### Sealing a site -/

/-- A site was sealed: digest and value are accepted, the second by every key with the same public
half.  The site is the same as before, as is everything next to it and before it. -/
structure Site.Seals (site : Site) (key : Key) (d d' : Document) : Prop where
  spares : site.Spares d d'
  before : ∀ x : Nat, x ≤ site.signature → d'.children x = d.children x
  digest : ∀ ctx, (site.verifyDigest ctx d').outcome = .ok true
  value : ∀ ctx : Context, ctx.key.toPublic = key.toPublic →
    (site.verifyValue ctx d').outcome = .ok true

/-- A located site holds the parts of the signature that was looked for. -/
theorem Site.Placed.of_located (hd : d.Linked) {node : NodeId} {kind : SiteKind}
    (h : Site.locate d node kind = .ok site) :
    site.Placed d ∧ site.signature = node ∧ site.kind = kind := by
  obtain ⟨p, holder, -⟩ := bind_eq_ok_iff.1 h
  rw [Site.holder] at holder
  split at holder
  · next q parent =>
    split at holder
    · next element =>
      obtain ⟨e, he⟩ := Document.isElement_iff.1 element
      have hs := hd.mem_children_iff.2 parent
      obtain ⟨placed, same, -⟩ := Site.Placed.of_locate hd he hs h
      exact ⟨placed, same, ((Site.locate_eq_ok_iff hd he hs).1 h).1⟩
    · cases holder
  · cases holder

/-- A site that holds the parts of a signature is found. -/
theorem Site.Placed.locate (hd : d.Linked) (placed : site.Placed d) :
    Site.locate d site.signature site.kind = .ok site := by
  obtain ⟨e, he⟩ := placed.element
  exact (Site.locate_eq_ok_iff hd he placed.held).2
    ⟨rfl, rfl, rfl, placed.signedInfo, placed.only, placed.signatureValue⟩

theorem Site.Placed.seals (hd : d.Linked) (placed : site.Placed d)
    (hdigest : (site.produceDigest ctx d).outcome = .ok d₁)
    (hvalue : (site.produceValue ctx' d₁).outcome = .ok d₂) : site.Seals ctx'.key d d₂ := by
  have step₁ := Site.Spares.produceDigest hd placed hdigest
  have step₂ := Site.Spares.produceValue step₁.linked step₁.placed hvalue
  obtain ⟨_, value, -, first, set₁⟩ := Site.produceDigest_eq_ok_iff.1 hdigest
  obtain ⟨_, _, _, -, -, set₂⟩ := Site.produceValue_eq_ok_iff.1 hvalue
  refine ⟨step₁.trans hd step₂, ?_, ?_, ?_⟩
  · -- digest and value come later in the table than the signature
    intro x le
    have info_lt := hd.child_lt placed.signedInfo.mem.1
    have reference_lt := hd.child_lt placed.reference_mem
    have digest_lt := hd.child_lt first.mem.1
    have value_lt := hd.child_lt placed.signatureValue.mem.1
    rw [Document.children_setText_of_ne set₂ (Nat.ne_of_lt (by omega)),
      Document.children_setText_of_ne set₁ (Nat.ne_of_lt (by omega))]
  · intro ctx₂
    have accepted : (site.verifyDigest ctx d₁).outcome = .ok true :=
      Site.verifyDigest_of_produceDigest hd placed hdigest
    exact Site.verifyDigest_setText step₁.linked step₁.placed set₂ accepted
  · intro ctx₂ same
    exact Site.verifyValue_of_produceValue step₁.linked step₁.placed same hvalue

namespace Site.Seals

variable (h : site.Seals key d d')

include h

theorem conforms (same : key'.toPublic = key.toPublic) :
    SignatureConforms key' d' site.parent site.signature :=
  .intro h.spares.placed.signedInfo h.spares.placed.only h.spares.placed.signatureValue
    ((verifyDigest_iff_conforms h.spares.linked).1 (h.digest ⟨key', false⟩))
    (verifyValue_iff_conforms.1 (h.value ⟨key', false⟩ same))

theorem firstNamed {x c : Nat} (le : x ≤ site.signature) {uri name : String} :
    d'.FirstChild x (d'.Named uri name) c ↔ d.FirstChild x (d.Named uri name) c := by
  rw [Document.FirstChild, Document.FirstChild, h.before x le, h.spares.names]

theorem firstElement {c : NodeId} :
    d'.FirstChild Document.root (fun c => ∃ e, d'.element? c = some e) c ↔
      d.FirstChild Document.root (fun c => ∃ e, d.element? c = some e) c := by
  simp only [Document.FirstChild, h.spares.outer, h.spares.elements]

/-- Sealing the signature of the assertion does not change which one it is. -/
theorem assertionSignature? (hd : d.Linked)
    (found : d.assertionSignature? = some site.signature) :
    d'.assertionSignature? = some site.signature := by
  obtain ⟨r, a, hr, ha, hs⟩ := assertionSignature?_eq_some_iff.1 found
  have assertion_lt := hd.child_lt ha.mem.1
  have signature_lt := hd.child_lt hs.mem.1
  exact assertionSignature?_eq_some_iff.2 ⟨r, a, h.firstElement.2 hr,
    (h.firstNamed (by omega)).2 ha, (h.firstNamed (by omega)).2 hs⟩

end Site.Seals

/-! ### Sealing a message -/

/-- Signing a message is stamping it and sealing the site in its document element. -/
theorem sign_seals (hd : d.Linked) {id issueInstant : String}
    (signed : (sign ctx d id issueInstant).trace.outcome = .ok ()) :
    ∃ (site : Site) (stamped : Document),
      d.FirstChild Document.root (fun c => ∃ e, d.element? c = some e) site.parent ∧
      d.FirstChild site.parent (d.Named Namespace.dsig ElementName.signature) site.signature ∧
      site.Spares d stamped ∧ site.Seals ctx.key stamped (sign ctx d id issueInstant).document := by
  obtain ⟨root, site, stamped, digested, found, hstamp, hdigest, hvalue⟩ := sign_cases signed
  obtain ⟨placed, rfl, element, signature⟩ := placed_of_signingSite hd found
  have spares := Site.Spares.stamp hd placed hstamp
  exact ⟨site, stamped, element, signature, spares,
    spares.placed.seals spares.linked hdigest hvalue⟩

/-- What stands next to the signature of a message conforms to what it conformed to before. -/
theorem Site.Spares.assertion_conforms (hd : d.Linked) (h : site.Spares d d')
    (signature : d.Named Namespace.dsig ElementName.signature site.signature)
    (conforms : ∀ a s, d.FirstChild site.parent
        (d.Named Namespace.samlAssertion ElementName.assertion) a →
      d.FirstChild a (d.Named Namespace.dsig ElementName.signature) s →
      SignatureConforms key d a s)
    {a s : NodeId}
    (ha : d'.FirstChild site.parent (d'.Named Namespace.samlAssertion ElementName.assertion) a)
    (hs : d'.FirstChild a (d'.Named Namespace.dsig ElementName.signature) s) :
    SignatureConforms key d' a s := by
  rw [Document.FirstChild, h.children, h.names, ← Document.FirstChild] at ha
  have ne : a ≠ site.signature := ha.mem.2.ne signature (by decide)
  obtain ⟨below, around⟩ := h.others a ha.mem.1 ne
  rw [Document.FirstChild, below.children a .refl, h.names, ← Document.FirstChild] at hs
  obtain ⟨e, he⟩ := ha.mem.2.element
  exact (conforms a s ha hs).congr hd h.linked below around he hs.mem.1

/-- A message is accepted after it was signed, if the signature of its assertion conformed
before. -/
theorem verify_of_seals (hd : d.Linked) {id issueInstant : String}
    (signed : (sign ctx d id issueInstant).trace.outcome = .ok ())
    (same : ctx'.key.toPublic = ctx.key.toPublic)
    (conforms : ∀ r a s, d.FirstChild Document.root (fun c => ∃ e, d.element? c = some e) r →
      d.FirstChild r (d.Named Namespace.samlAssertion ElementName.assertion) a →
      d.FirstChild a (d.Named Namespace.dsig ElementName.signature) s →
      SignatureConforms ctx'.key d a s) :
    (verify ctx' (sign ctx d id issueInstant).document).outcome = .ok true := by
  obtain ⟨site, stamped, element, signature, spares, seals⟩ := sign_seals hd signed
  have whole := spares.trans hd seals.spares
  refine (verify_iff_conforms whole.linked).2 (.intro ?_ ?_ ?_ (seals.conforms same))
  · simpa only [Document.FirstChild, whole.outer, whole.elements] using element
  · rw [Document.FirstChild, whole.children, whole.names]
    exact signature
  · intro a s ha hs
    exact whole.assertion_conforms hd signature.mem.2 (fun a s => conforms site.parent a s element)
      ha hs

/-- **Sealing is complete, site by site.**  Let a site be located at any node of a document, and let
its digest be put in.  Then the digest is accepted.  Let the value be put in next.  Then the value
is accepted by every key with the same public half, the digest still is, and the same site is
located.  If that was the site of the assertion and the message is signed afterwards with such a
key, the message is accepted. -/
theorem verify_of_produced (hd : d.Reachable) {node : NodeId} {kind : SiteKind}
    (located : Site.locate d node kind = .ok site)
    (digested : (site.produceDigest ctx d).outcome = .ok d₁) :
    (∀ ctx' : Context, (site.verifyDigest ctx' d₁).outcome = .ok true) ∧
    ∀ (ctx₁ : Context) (d₂ : Document), (site.produceValue ctx₁ d₁).outcome = .ok d₂ →
      (∀ ctx' : Context, ctx'.key.toPublic = ctx₁.key.toPublic →
        (site.verifyValue ctx' d₂).outcome = .ok true) ∧
      (∀ ctx' : Context, (site.verifyDigest ctx' d₂).outcome = .ok true) ∧
      Site.locate d₂ node kind = .ok site ∧
      (d.assertionSignature? = some node → ∀ (ctx₂ ctx' : Context) (id issueInstant : String),
        ctx₂.key.toPublic = ctx₁.key.toPublic → ctx'.key.toPublic = ctx₁.key.toPublic →
        (sign ctx₂ d₂ id issueInstant).trace.outcome = .ok () →
        (verify ctx' (sign ctx₂ d₂ id issueInstant).document).outcome = .ok true) := by
  have linked := hd.linked
  obtain ⟨placed, rfl, rfl⟩ := Site.Placed.of_located linked located
  refine ⟨fun ctx' => Site.verifyDigest_of_produceDigest linked placed digested, ?_⟩
  intro ctx₁ d₂ valued
  have seals := placed.seals linked digested valued
  refine ⟨seals.value, seals.digest, seals.spares.placed.locate seals.spares.linked, ?_⟩
  intro found ctx₂ ctx' id issueInstant same₂ same' signed
  refine verify_of_seals seals.spares.linked signed (same'.trans same₂.symm) ?_
  intro r a s hr ha hs
  -- the signature of the assertion is the one that was sealed
  have again := assertionSignature?_eq_some_iff.2 ⟨r, a, hr, ha, hs⟩
  rw [seals.assertionSignature? linked found] at again
  obtain rfl := Option.some.inj again
  have parent := seals.spares.linked.mem_children_iff.1 hs.mem.1
  rw [seals.spares.linked.mem_children_iff.1 seals.spares.placed.held] at parent
  obtain rfl := Option.some.inj parent
  exact seals.conforms same'

/-! ### A message with two signatures -/

/-- A signature without digest and value. -/
def signatureTemplate (uri : String) : Forest Kind :=
  let row (name : String) (attributes : List (String × String)) : Kind :=
    .element ⟨⟨some "ds", name, some Namespace.dsig⟩,
      attributes.map fun a => ⟨⟨none, a.1, none⟩, a.2⟩, []⟩
  .node (row "Signature" [])
    (.node (row "SignedInfo" [])
      (.node (row "CanonicalizationMethod" [("Algorithm", Algorithm.exclusive)]) .nil
        (.node (row "SignatureMethod" [("Algorithm", Algorithm.rsaSha1)]) .nil
          (.node (row "Reference" [("URI", uri)])
            (.node (row "Transforms" [])
              (.node (row "Transform" [("Algorithm", Algorithm.enveloped)]) .nil
                (.node (row "Transform" [("Algorithm", Algorithm.exclusive)]) .nil .nil))
              (.node (row "DigestMethod" [("Algorithm", Algorithm.sha1)]) .nil
                (.node (row "DigestValue" []) .nil .nil))) .nil)))
      (.node (row "SignatureValue" []) .nil .nil)) .nil

/-- The text of `signatureTemplate`, line by line. -/
def signatureTemplateLines (uri : String) : List String :=
  ["<ds:Signature><ds:SignedInfo>",
    "<ds:CanonicalizationMethod Algorithm='http://www.w3.org/2001/10/xml-exc-c14n#'/>",
    "<ds:SignatureMethod Algorithm='http://www.w3.org/2000/09/xmldsig#rsa-sha1'/>",
    "<ds:Reference URI='", uri, "'><ds:Transforms>",
    "<ds:Transform Algorithm='http://www.w3.org/2000/09/xmldsig#enveloped-signature'/>",
    "<ds:Transform Algorithm='http://www.w3.org/2001/10/xml-exc-c14n#'/></ds:Transforms>",
    "<ds:DigestMethod Algorithm='http://www.w3.org/2000/09/xmldsig#sha1'/><ds:DigestValue/>",
    "</ds:Reference></ds:SignedInfo><ds:SignatureValue/></ds:Signature>"]

/-- A message with an assertion, where both are to be signed. -/
def templateWith (attributes : List (String × String)) (uri : String) : Document := .ofForest
  (.node (.element ⟨⟨none, "r", none⟩, attributes.map fun a => ⟨⟨none, a.1, none⟩, a.2⟩,
      [⟨"ds", Namespace.dsig⟩, ⟨"saml", Namespace.samlAssertion⟩]⟩)
    (.node (.element ⟨⟨some "saml", "Assertion", some Namespace.samlAssertion⟩,
        [⟨⟨none, "ID", none⟩, "a"⟩], []⟩) (signatureTemplate "#a")
      (signatureTemplate uri)) .nil)

def template : Document := templateWith [] ""

set_option maxRecDepth 10000 in
theorem parse_template : Document.parse (String.join
    ("<r xmlns:ds='http://www.w3.org/2000/09/xmldsig#'" ::
      " xmlns:saml='urn:oasis:names:tc:SAML:2.0:assertion'><saml:Assertion ID='a'>" ::
      signatureTemplateLines "#a" ++ "</saml:Assertion>" :: signatureTemplateLines "" ++
      ["</r>"])) = .ok template := by
  refine Document.parse_join ?_
  rw [signatureTemplateLines, signatureTemplateLines]
  simp only [List.cons_append, List.nil_append, List.flatMap_cons, List.flatMap_nil]
  repeat rw [String.toList_ofList]
  decide +kernel

/-- An element with a text for its only content. -/
def withText (d : Document) (x : NodeId) (content : String) : Document :=
  (d.detachChildren x).appendChild x (.text content)

theorem setText_eq_withText {x : NodeId} {content : String} (element : d.isElement x = true)
    (nonempty : content ≠ "") : d.setText x content = .ok (withText d x content) := by
  obtain ⟨e, he⟩ := Document.isElement_iff.1 element
  rw [Document.setText, he]
  simp only [nonempty, if_false]
  rfl

theorem eq_ok_of_toOption {α : Type} {x : Except Fault α} {a : α} (h : x.toOption = some a) :
    x = .ok a := by
  cases x with
  | error e => cases h
  | ok b => rw [Option.some.inj h]

/-- Putting in a digest whose text is known. -/
theorem produceDigest_sha1 {digest : String} {x : NodeId}
    (linked : Reference.checkLinkage d site = .ok ())
    (transforms : Reference.transforms d site.reference = .ok ⟨.exclusive, none⟩)
    (method : d.algorithmOf site.reference ElementName.digestMethod = .ok Algorithm.sha1)
    (signed : (d.kind? site.parent).isSome)
    (first : d.requiredChild site.reference ElementName.digestValue = .ok x)
    (nonempty : digest ≠ "")
    (hashed : Base64.encode (DigestMethod.sha1.hash ((Canonical.write
      (d.rendered site.parent (some site.signature) false [])).flatMap String.utf8EncodeChar)) =
      digest.toList) :
    (site.produceDigest ctx d).outcome = .ok (withText d x digest) := by
  have first := Document.requiredChild_eq_ok_iff.1 first
  refine Site.produceDigest_eq_ok_iff.2 ⟨digest, x, Site.computeDigest_eq_ok_iff.2
    ⟨linked, _, transforms, .sha1, method, _, Document.canonical_eq_ok signed rfl, ?_⟩, first,
    setText_eq_withText (Document.isElement_iff.2 first.mem.2.element) nonempty⟩
  show digest = String.ofList (Base64.encode (DigestMethod.sha1.hash (utf8 (String.ofList
    (Canonical.write (d.rendered site.parent (some site.signature) false []))))))
  rw [utf8_ofList, hashed, String.ofList_toList]

/-- Putting in a value whose text is known. -/
theorem produceValue_rsaSha1 {value : String}
    (canonical : d.algorithmOf site.signedInfo ElementName.canonicalizationMethod =
      .ok Algorithm.exclusive)
    (method : d.algorithmOf site.signedInfo ElementName.signatureMethod = .ok Algorithm.rsaSha1)
    (info : (d.kind? site.signedInfo).isSome) (element : d.isElement site.signatureValue = true)
    (nonempty : value ≠ "")
    (signed : (ctx.key.sign .rsaSha1 ((Canonical.write
      (d.rendered site.signedInfo none false [])).flatMap String.utf8EncodeChar)).toOption.map
        Base64.encode = some value.toList) :
    (site.produceValue ctx d).outcome = .ok (withText d site.signatureValue value) := by
  obtain ⟨bytes, signed, encoded⟩ := Option.map_eq_some_iff.1 signed
  refine Site.produceValue_eq_ok_iff.2 ⟨.rsaSha1, _, bytes, Site.signedInput_eq_ok_iff.2
    ⟨method, signedInfoForm_eq_ok_iff.2 ⟨.exclusive, canonical, Document.canonical_eq_ok info rfl⟩⟩,
    ?_, ?_⟩
  · show ctx.key.sign .rsaSha1 (utf8 (String.ofList (Canonical.write
      (d.rendered site.signedInfo none false [])))) = .ok bytes
    rw [utf8_ofList]
    exact eq_ok_of_toOption signed
  · rw [encoded, String.ofList_toList]
    exact setText_eq_withText element nonempty

theorem sign_of_steps {root : NodeId} {stamped digested : Document} {id issueInstant : String}
    (found : signingSite ctx d = .ok (root, site))
    (hstamp : stamp d root site id issueInstant = .ok stamped)
    (hdigest : (site.produceDigest ctx stamped).outcome = .ok digested)
    (hvalue : (site.produceValue ctx digested).outcome = .ok d') :
    (sign ctx d id issueInstant).trace.outcome = .ok () := by
  simp only [sign, found, hstamp, hdigest, hvalue]

/-- The site of the assertion in `template`. -/
def assertionSite : Site := ⟨.assertion, 3, 2, 4, 7, 13⟩

/-- The site of the message in `template`. -/
def messageSite : Site := ⟨.root, 14, 1, 15, 18, 24⟩

/-- A template with the digest of its assertion. -/
def assertionDigested (d : Document) : Document := withText d 12 "/FmnCJnzm9kB28wvVyC2mLIu6TI="

/-- A template with its assertion sealed. -/
def assertionSealed (d : Document) : Document := withText (assertionDigested d) 13
  "fy797RD6TsXBgZmmJV48FSsfTPCHraMVJSYLQt5nq8e+CVv8YIFzt75XhTHbaQ=="

theorem produceDigest_template (ctx : Context) :
    (assertionSite.produceDigest ctx template).outcome = .ok (assertionDigested template) :=
  produceDigest_sha1 rfl rfl rfl rfl rfl (by decide) (by decide +kernel)

theorem produceValue_template :
    (assertionSite.produceValue ⟨.privateKey sealingKey, true⟩
      (assertionDigested template)).outcome = .ok (assertionSealed template) :=
  produceValue_rsaSha1 rfl rfl rfl rfl (by decide) (by decide +kernel)

/-- `template` with its assertion sealed, and stamped. -/
def stampedTemplate : Document :=
  assertionSealed (templateWith [("ID", "j"), ("IssueInstant", "u")] "#j")

theorem produceDigest_stampedTemplate (ctx : Context) :
    (messageSite.produceDigest ctx stampedTemplate).outcome =
      .ok (withText stampedTemplate 23 "q/UB4egTDU4Q+PxCqo9LIgyNLlw=") :=
  produceDigest_sha1 rfl rfl rfl rfl rfl (by decide) (by decide +kernel)

theorem produceValue_stampedTemplate : (messageSite.produceValue ⟨.privateKey sealingKey, true⟩
    (withText stampedTemplate 23 "q/UB4egTDU4Q+PxCqo9LIgyNLlw=")).outcome =
      .ok (withText (withText stampedTemplate 23 "q/UB4egTDU4Q+PxCqo9LIgyNLlw=") 24
        "OjytDa8Ziyu63valEa1FoljcAuELUvq++BPP+D2OSO87M6B8E7xcxR+TopR/3Q==") :=
  produceValue_rsaSha1 rfl rfl rfl rfl (by decide) (by decide +kernel)

/-- After its assertion, the message itself can be sealed. -/
theorem sign_template : (sign ⟨.privateKey sealingKey, true⟩ (assertionSealed template)
    "j" "u").trace.outcome = .ok () := by
  have found : signingSite ⟨.privateKey sealingKey, true⟩ (assertionSealed template) =
      .ok (1, messageSite) := rfl
  have hstamp : stamp (assertionSealed template) 1 messageSite "j" "u" = .ok stampedTemplate :=
    eq_ok_of_toOption (by decide +kernel)
  exact sign_of_steps found hstamp (produceDigest_stampedTemplate _) produceValue_stampedTemplate

theorem verify_of_produced_template : template.Reachable ∧
    Site.locate template 3 .assertion = .ok assertionSite ∧
    template.assertionSignature? = some 3 ∧
    (assertionSite.produceDigest ⟨.privateKey sealingKey, true⟩ template).outcome =
      .ok (assertionDigested template) ∧
    (assertionSite.produceValue ⟨.privateKey sealingKey, true⟩
      (assertionDigested template)).outcome = .ok (assertionSealed template) ∧
    Site.locate (assertionSealed template) 3 .assertion = .ok assertionSite ∧
    (verify ⟨.publicKey sealingKey.publicKey, false⟩
      (sign ⟨.privateKey sealingKey, true⟩ (assertionSealed template) "j" "u").document).outcome =
      .ok true := by
  have reachable : template.Reachable := .parse parse_template
  have located : Site.locate template 3 .assertion = .ok assertionSite := rfl
  have found : template.assertionSignature? = some 3 := rfl
  have digested := produceDigest_template ⟨.privateKey sealingKey, true⟩
  obtain ⟨-, valued⟩ := verify_of_produced reachable located digested
  obtain ⟨-, -, again, signed⟩ := valued _ _ produceValue_template
  exact ⟨reachable, located, found, digested, produceValue_template, again,
    signed found _ ⟨.publicKey sealingKey.publicKey, false⟩ "j" "u" rfl rfl sign_template⟩

end SamlSeal
