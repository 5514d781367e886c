import SamlSeal.Proofs.Copies
import SamlSeal.Proofs.Numbering
import SamlSeal.Proofs.Profile

/-!
# What a verdict rests on

Two consequences of judging a signature by the element that holds it and by nothing else.

* `verify_excerpt`: an assertion that is taken out of its message, with the bindings that are in
  force there, is judged as it was in the message,
* `verify_eq_of_sameButSignature`: what is inside a signature besides the signed information and the
  signature value is not trusted, and cannot change the verdict on a message.

Both compare first children of a name: `AtFirst` is the relation between two lists of children that
differ at such a child only.
-/

namespace SamlSeal

open Xml

/-! ### Lists that differ at one place -/

/-- Two lists correspond one by one, but for the first element that passes a test: what corresponds
to it does so in another way. -/
inductive AtFirst {α β : Type} (test : α → Bool) (R T : α → β → Prop) : List α → List β → Prop
  | nil : AtFirst test R T [] []
  | first {x : α} {y : β} {xs : List α} {ys : List β} (passes : test x = true) (hxy : T x y)
    (rest : List.Forall₂ R xs ys) : AtFirst test R T (x :: xs) (y :: ys)
  | next {x : α} {y : β} {xs : List α} {ys : List β} (fails : test x = false) (hxy : R x y)
    (rest : AtFirst test R T xs ys) : AtFirst test R T (x :: xs) (y :: ys)

namespace AtFirst

variable {α β : Type} {test : α → Bool} {test' : β → Bool} {R T : α → β → Prop} {xs : List α}
  {ys : List β}

theorem of_forall₂ (h : List.Forall₂ R xs ys)
    (imp : ∀ {x y}, test x = true → R x y → T x y) : AtFirst test R T xs ys := by
  induction h with
  | nil => exact .nil
  | @cons x y xs ys hxy rest ih =>
    cases passes : test x with
    | false => exact .next passes hxy ih
    | true => exact .first passes (imp passes hxy) rest

/-- The test finds elements that correspond in the other way. -/
theorem find? (h : AtFirst test R T xs ys) (sameR : ∀ {x y}, R x y → test' y = test x)
    (sameT : ∀ {x y}, T x y → test' y = test x) :
    Option.Rel T (xs.find? test) (ys.find? test') := by
  induction h with
  | nil => exact .none
  | first passes hxy _ =>
    rw [List.find?_cons_of_pos passes, List.find?_cons_of_pos ((sameT hxy).trans passes)]
    exact .some hxy
  | next fails hxy _ ih =>
    rw [List.find?_cons_of_neg (by simp [fails]),
      List.find?_cons_of_neg (by simp [sameR hxy, fails])]
    exact ih

/-- A test that fails at the place in question finds elements that correspond. -/
theorem find?_other {other : α → Bool} {other' : β → Bool} (h : AtFirst test R T xs ys)
    (sameR : ∀ {x y}, R x y → other' y = other x)
    (off : ∀ {x y}, test x = true → T x y → other x = false ∧ other' y = false) :
    Option.Rel R (xs.find? other) (ys.find? other') := by
  induction h with
  | nil => exact .none
  | first passes hxy rest =>
    obtain ⟨fails, fails'⟩ := off passes hxy
    rw [List.find?_cons_of_neg (by simp [fails]), List.find?_cons_of_neg (by simp [fails'])]
    exact Document.rel_find? rest sameR
  | @next x y xs ys _ hxy _ ih =>
    rw [List.find?_cons, List.find?_cons, sameR hxy]
    cases other x with
    | false => exact ih
    | true => exact .some hxy

end AtFirst

namespace Xml.Document

variable {d d' : Document}

theorem without_of_not_mem {x : NodeId} {xs : List NodeId} (h : x ∉ xs) :
    without (some x) xs = xs := by
  refine List.filter_eq_self.2 fun y hy => ?_
  have ne : x ≠ y := fun eq => h (eq ▸ hy)
  simpa using ne

/-- Without the elements that the test finds, the lists correspond. -/
theorem forall₂_without {test test' : NodeId → Bool} {R T : NodeId → NodeId → Prop}
    {xs ys : List NodeId} (h : AtFirst test R T xs ys)
    (sameR : ∀ {x y}, R x y → test' y = test x) (sameT : ∀ {x y}, T x y → test' y = test x)
    (nodup : xs.Nodup) (nodup' : ys.Nodup) {x y : NodeId} (hx : xs.find? test = some x)
    (hy : ys.find? test' = some y) :
    List.Forall₂ R (without (some x) xs) (without (some y) ys) := by
  induction h with
  | nil => cases hx
  | first passes hxy rest =>
    rw [List.find?_cons_of_pos passes] at hx
    rw [List.find?_cons_of_pos ((sameT hxy).trans passes)] at hy
    obtain rfl := Option.some.inj hx
    obtain rfl := Option.some.inj hy
    rw [without, without, List.filter_cons_of_neg (by simp), List.filter_cons_of_neg (by simp)]
    rw [← without, ← without, without_of_not_mem (List.nodup_cons.1 nodup).1,
      without_of_not_mem (List.nodup_cons.1 nodup').1]
    exact rest
  | @next z w xs ys fails hzw _ ih =>
    rw [List.find?_cons_of_neg (by simp [fails])] at hx
    rw [List.find?_cons_of_neg (by simp [sameR hzw, fails])] at hy
    have ne : x ≠ z := fun eq => (List.nodup_cons.1 nodup).1 (eq ▸ List.mem_of_find?_eq_some hx)
    have ne' : y ≠ w := fun eq => (List.nodup_cons.1 nodup').1 (eq ▸ List.mem_of_find?_eq_some hy)
    rw [without, without, List.filter_cons_of_pos (by simpa using ne),
      List.filter_cons_of_pos (by simpa using ne')]
    exact .cons hzw (ih (List.nodup_cons.1 nodup).2 (List.nodup_cons.1 nodup').2 hx hy)

/-! ### First signatures -/

/-- What is inside two elements is the same except inside the first signatures, which agree in what
is trusted. -/
def SameInside (d d' : Document) (p p' : NodeId) : Prop :=
  AtFirst (d.isNamed Namespace.dsig ElementName.signature) (SameTree d d') (SameSignature d d')
    (d.children p) (d'.children p')

theorem SameSignature.isNamed_eq {s s' : NodeId} (h : SameSignature d d' s s')
    (uri localName : String) : d'.isNamed uri localName s' = d.isNamed uri localName s := by
  obtain ⟨e, e', he, he', name, -⟩ := h.tag
  rw [isNamed, isNamed, he, he']
  dsimp only
  rw [name]

section Holder

variable (linked : d.Linked) (linked' : d'.Linked) {p p' : NodeId} {e e' : Element}
  (he : d.element? p = some e) (he' : d'.element? p' = some e') (name : e'.name = e.name)
  (attributes : e'.attributes = e.attributes)
  (scope : ∀ q, (d'.scopeAt p').uri? q = (d.scopeAt p).uri? q)

include linked linked' he he' name attributes scope

/-- The first signatures in two elements that are the same but for them. -/
theorem sameSigned_of_sameInside (below : SameInside d d' p p') :
    Option.Rel (fun s s' => SameSigned d d' p s p' s')
      (d.childElement? p Namespace.dsig ElementName.signature)
      (d'.childElement? p' Namespace.dsig ElementName.signature) := by
  have sameR {x y : NodeId} (h : SameTree d d' x y) :=
    mirrorsBelow_sameTree.isNamed_eq h Namespace.dsig ElementName.signature
  have sameT {x y : NodeId} (h : SameSignature d d' x y) :=
    h.isNamed_eq Namespace.dsig ElementName.signature
  rcases rel_cases (AtFirst.find? below sameR sameT) with ⟨none, none'⟩ | ⟨s, s', hs, hs', same⟩
  · rw [childElement?, childElement?, none, none']
    exact .none
  rw [childElement?, childElement?, hs, hs']
  exact .some {
    holder := ⟨e, e', he, he', name, attributes⟩
    scope := scope
    child := List.mem_of_find?_eq_some hs
    child' := List.mem_of_find?_eq_some hs'
    others := sameTrees_iff_forall₂.2 (forall₂_without below sameR sameT
      (linked.nodup_children p) (linked'.nodup_children p') hs hs')
    signature := same }

theorem sameSigned_of_sameTrees (below : SameTrees d d' (d.children p) (d'.children p')) :
    Option.Rel (fun s s' => SameSigned d d' p s p' s')
      (d.childElement? p Namespace.dsig ElementName.signature)
      (d'.childElement? p' Namespace.dsig ElementName.signature) :=
  sameSigned_of_sameInside linked linked' he he' name attributes scope
    (.of_forall₂ (sameTrees_iff_forall₂.1 below) fun named same =>
      same.sameSignature (isElement_of_isNamed named))

end Holder

end Xml.Document

/-! ### The outcome of one site -/

namespace Site

variable {ctx : Context} {d : Document}

/-- The kind of a site is reported, but the outcome does not depend on it. -/
theorem outcome_verifyDigest (site : Site) (kind : SiteKind) :
    (verifyDigest ctx d { site with kind }).outcome = (site.verifyDigest ctx d).outcome := by
  simp only [verifyDigest, computeDigest, Traced.outcome_bind, Traced.outcome_logIf,
    Traced.outcome_log, Traced.outcome_pure]
  rfl

theorem outcome_verifyValue (site : Site) (kind : SiteKind) :
    (verifyValue ctx d { site with kind }).outcome = (site.verifyValue ctx d).outcome := by
  simp only [verifyValue, signedInput, Traced.outcome_bind, Traced.outcome_logIf,
    Traced.outcome_log, Traced.outcome_pure]
  rfl

theorem locate_kind (s : NodeId) (kind kind' : SiteKind) :
    locate d s kind' = locate d s kind >>= fun site => .ok { site with kind := kind' } := by
  simp only [locate, bind_assoc]
  rfl

end Site

/-- The outcome of one signature: its parts have to be found, then its digest is compared, then its
value is checked.  It is the same for a signature of the message and for one of an assertion. -/
theorem outcome_verifySite {ctx : Context} {d : Document} (s : NodeId) (kind kind' : SiteKind) :
    (verifySite ctx d kind' s).outcome = (do
      let site ← Site.locate d s kind
      if ← (site.verifyDigest ctx d).outcome then (site.verifyValue ctx d).outcome
      else .ok false) := by
  rw [verifySite, Traced.outcome_bind]
  show Site.locate d s kind' >>= _ = _
  rw [Site.locate_kind s kind kind', bind_assoc]
  refine congrArg (Site.locate d s kind >>= ·) (funext fun site => ?_)
  simp only [Traced.outcome_bind, Traced.outcome_log]
  show (Site.verifyDigest ctx d { site with kind := kind' }).outcome >>= _ = _
  rw [Site.outcome_verifyDigest]
  refine congrArg ((site.verifyDigest ctx d).outcome >>= ·) (funext fun equal => ?_)
  cases equal with
  | false => rfl
  | true => exact Site.outcome_verifyValue site kind'

namespace Xml.Document

variable {d d' : Document}

/-! ### Assertions outside their messages -/

/-- The document element of the second document is a copy of an element of the first one.  It
declares all bindings that are in force at the element, in whatever order. -/
def HasExcerpt (d : Document) (a : NodeId) (d' : Document) : Prop :=
  ∃ r e ds, d'.rootElement? = some r ∧ d.element? a = some e ∧ ds.Perm (d.scopeAt a) ∧
    d'.element? r = some { e with declarations := ds } ∧
    SameTrees d d' (d.children a) (d'.children r)

/-- The bindings that an excerpt declares are those that were in force. -/
theorem scopeAt_excerpt (linked : d.Linked) (linked' : d'.Linked) {a r : NodeId} {e : Element}
    {ds : List Declaration} (hr : d'.rootElement? = some r) (perm : ds.Perm (d.scopeAt a))
    (he : d'.element? r = some { e with declarations := ds }) (p : String) :
    (d'.scopeAt r).uri? p = (d.scopeAt a).uri? p := by
  rw [scopeAt_of_element linked' he,
    scopeAround_of_mem_root linked' (List.mem_of_find?_eq_some hr)]
  exact Scope.uri?_declare_of_perm (proper_scope linked a).2 perm p

/-- An excerpt has no assertion of its own with a signature, if the element had none. -/
theorem assertionSignature?_excerpt {a r : NodeId} (hr : d'.rootElement? = some r)
    (below : SameTrees d d' (d.children a) (d'.children r))
    (nested : ∀ b, d.childElement? a Namespace.samlAssertion ElementName.assertion = some b →
      d.childElement? b Namespace.dsig ElementName.signature = none) :
    d'.assertionSignature? = none := by
  have assertion : Option.Rel (SameTree d d')
      (d.childElement? a Namespace.samlAssertion ElementName.assertion)
      (d'.childElement? r Namespace.samlAssertion ElementName.assertion) :=
    rel_find? (sameTrees_iff_forall₂.1 below) fun same => mirrorsBelow_sameTree.isNamed_eq same _ _
  rw [assertionSignature?, hr]
  simp only [bind, Option.bind_some]
  rcases rel_cases assertion with ⟨-, none'⟩ | ⟨b, b', hb, hb', same⟩
  · rw [none']
    rfl
  rw [hb', Option.bind_some]
  rcases rel_cases (mirrorsBelow_sameTree.childElement? same Namespace.dsig ElementName.signature)
    with ⟨-, none'⟩ | ⟨s, s', hs, -, -⟩
  · exact none'
  · cases hs.symm.trans (nested b hb)

theorem childElement?_of_assertionSignature? (linked : d.Linked) {s a : NodeId}
    (hs : d.assertionSignature? = some s) (ha : d.parent? s = some a) :
    d.childElement? a Namespace.dsig ElementName.signature = some s := by
  obtain ⟨r, -, hs⟩ := Option.bind_eq_some_iff.1 hs
  obtain ⟨a', -, hs⟩ := Option.bind_eq_some_iff.1 hs
  have up := linked.mem_children_iff.1 (List.mem_of_find?_eq_some hs)
  obtain rfl := Option.some.inj (up.symm.trans ha)
  exact hs

end Xml.Document

/-- An assertion is judged outside its message as it is inside.  Taken out with all bindings that
are in force at it, it is a message of its own, and the verdict on that message is the outcome of
the assertion's signature: the fault of its parts, of its digest or of its value, or else whether
both are right.  This is asked of the assertion, that it holds no signed assertion itself. -/
theorem verify_excerpt {d d' : Document} (hd : d.Reachable) (hd' : d'.Reachable) {s a : NodeId}
    (hs : d.assertionSignature? = some s) (ha : d.parent? s = some a)
    (nested : ∀ b, d.childElement? a Namespace.samlAssertion ElementName.assertion = some b →
      d.childElement? b Namespace.dsig ElementName.signature = none)
    (excerpt : d.HasExcerpt a d') (ctx : Context) :
    (verify ctx d').outcome = (do
      let site ← Site.locate d s .assertion
      if ← (site.verifyDigest ctx d).outcome then (site.verifyValue ctx d).outcome
      else .ok false) := by
  have linked := hd.linked
  have linked' := hd'.linked
  obtain ⟨r, e, ds, hr, he, perm, he', below⟩ := excerpt
  have signed := Document.sameSigned_of_sameTrees linked linked' he he' rfl rfl
    (Document.scopeAt_excerpt linked linked' hr perm he') below
  rw [Document.childElement?_of_assertionSignature? linked hs ha] at signed
  generalize found : d'.childElement? r Namespace.dsig ElementName.signature = found? at signed
  cases signed with
  | @some _ s' same =>
    have root : d'.rootSignature = .ok (some s') := by
      rw [Document.rootSignature, hr]
      exact congrArg Except.ok found
    have alone : verifyAssertion ctx d' = pure true := by
      rw [verifyAssertion, Document.assertionSignature?_excerpt hr below nested]
    have whole : verify ctx d' = verifySite ctx d' .root s' := by
      rw [verify, root]
      show (do if ← verifyAssertion ctx d' then verifySite ctx d' .root s' else pure false) = _
      rw [alone]
      rfl
    rw [whole, same.verifySite_eq linked linked', outcome_verifySite s .assertion .root]

/-- The content of an assertion that `sealingKey` has sealed. -/
def assertionContent : Forest Kind :=
  let row (name : String) (attributes : List (String × String)) : Kind :=
    .element ⟨⟨some "ds", name, some Namespace.dsig⟩,
      attributes.map fun a => ⟨⟨none, a.1, none⟩, a.2⟩, []⟩
  let text (content : String) : Forest Kind := .node (.text content) .nil .nil
  .node (row "Signature" [])
    (.node (row "SignedInfo" [])
      (.node (row "CanonicalizationMethod" [("Algorithm", Algorithm.exclusive)]) .nil
        (.node (row "SignatureMethod" [("Algorithm", Algorithm.rsaSha1)]) .nil
          (.node (row "Reference" [("URI", "#a")])
            (.node (row "Transforms" [])
              (.node (row "Transform" [("Algorithm", Algorithm.enveloped)]) .nil
                (.node (row "Transform" [("Algorithm", Algorithm.exclusive)]) .nil .nil))
              (.node (row "DigestMethod" [("Algorithm", Algorithm.sha1)]) .nil
                (.node (row "DigestValue" []) (text "/FmnCJnzm9kB28wvVyC2mLIu6TI=") .nil)))
            .nil)))
      (.node (row "SignatureValue" [])
        (text "fy797RD6TsXBgZmmJV48FSsfTPCHraMVJSYLQt5nq8e+CVv8YIFzt75XhTHbaQ==") .nil)) .nil

/-- An assertion with the given declarations. -/
def assertionElement (declarations : List Declaration) : Kind :=
  .element ⟨⟨some "saml", "Assertion", some Namespace.samlAssertion⟩, [⟨⟨none, "ID", none⟩, "a"⟩],
    declarations⟩

/-- The text of an assertion after its start tag. -/
def assertionLines : List String :=
  ["<ds:Signature><ds:SignedInfo>",
    "<ds:CanonicalizationMethod Algorithm='http://www.w3.org/2001/10/xml-exc-c14n#'/>",
    "<ds:SignatureMethod Algorithm='http://www.w3.org/2000/09/xmldsig#rsa-sha1'/>",
    "<ds:Reference URI='#a'><ds:Transforms>",
    "<ds:Transform Algorithm='http://www.w3.org/2000/09/xmldsig#enveloped-signature'/>",
    "<ds:Transform Algorithm='http://www.w3.org/2001/10/xml-exc-c14n#'/></ds:Transforms>",
    "<ds:DigestMethod Algorithm='http://www.w3.org/2000/09/xmldsig#sha1'/>",
    "<ds:DigestValue>/FmnCJnzm9kB28wvVyC2mLIu6TI=</ds:DigestValue></ds:Reference></ds:SignedInfo>",
    "<ds:SignatureValue>fy797RD6TsXBgZmmJV48FSsfTPCHraMVJSYLQt5nq8e+CVv8YIFzt75XhTHbaQ==",
    "</ds:SignatureValue></ds:Signature></saml:Assertion>"]

/-- A message with an assertion, which declares nothing itself. -/
def enclosing : Document := .ofForest
  (.node (.element ⟨⟨none, "r", some "urn:r"⟩, [], [⟨"", "urn:r"⟩, ⟨"ds", Namespace.dsig⟩,
      ⟨"saml", Namespace.samlAssertion⟩]⟩)
    (.node (assertionElement []) assertionContent .nil) .nil)

/-- The assertion of `enclosing` by itself. -/
def takenOut : Document := .ofForest
  (.node (assertionElement [⟨"", "urn:r"⟩, ⟨"ds", Namespace.dsig⟩,
    ⟨"saml", Namespace.samlAssertion⟩]) assertionContent .nil)

/-- The site of the signature in `enclosing`. -/
def enclosedSite : Site := ⟨.assertion, 3, 2, 4, 7, 14⟩

/-- In its message the digest of the assertion is right. -/
theorem verifyDigest_enclosing (ctx : Context) :
    (enclosedSite.verifyDigest ctx enclosing).outcome = .ok true := by
  have computed : (enclosedSite.computeDigest ctx enclosing).outcome = .ok _ :=
    Site.computeDigest_eq_ok_iff.2 ⟨rfl, ⟨.exclusive, none⟩, rfl, .sha1, rfl, _,
      Document.canonical_eq_ok rfl rfl, rfl⟩
  refine Site.verifyDigest_eq_true_iff.2 ⟨_, computed, 12, rfl, congrArg String.ofList ?_⟩
  rw [utf8_ofList, Document.unwrapped_eq rfl rfl, String.toList_ofList]
  decide +kernel

/-- The number that the signature value in `enclosing` stands for. -/
def enclosedValue : Nat :=
  0x7f2efded10fa4ec5c18199a6255e3c152b1f4cf087ada31525260b42de67abc7be095bfc608173b7be578531db69

theorem value_enclosing : Key.verify (.publicKey sealingKey.publicKey) .rsaSha1
    (utf8 (String.ofList (Canonical.write (enclosing.rendered 4 none false []))))
      (BigEndian.ofNat 46 enclosedValue) = true := by
  rw [utf8_ofList]
  decide +kernel

/-- In its message the value of the assertion is right. -/
theorem verifyValue_enclosing (debug : Bool) :
    (enclosedSite.verifyValue ⟨.publicKey sealingKey.publicKey, debug⟩ enclosing).outcome =
      .ok true := by
  have form : signedInfoForm enclosing 4 =
      .ok (String.ofList (Canonical.write (enclosing.rendered 4 none false []))) :=
    signedInfoForm_eq_ok_iff.2 ⟨.exclusive, rfl, Document.canonical_eq_ok rfl rfl⟩
  have held : Base64.decode? (enclosing.unwrapped 14) = some (BigEndian.ofNat 46 enclosedValue) := by
    rw [Document.unwrapped_eq rfl rfl, String.toList_ofList]
    decide +kernel
  exact Site.verifyValue_eq_true_iff.2 ⟨.rsaSha1, _, Site.signedInput_eq_ok_iff.2 ⟨rfl, form⟩, _,
    held, value_enclosing⟩

theorem verify_takenOut :
    Document.parse (String.join ("<r xmlns='urn:r' xmlns:ds='http://www.w3.org/2000/09/xmldsig#'" ::
      " xmlns:saml='urn:oasis:names:tc:SAML:2.0:assertion'><saml:Assertion ID='a'>" ::
      assertionLines ++ ["</r>"])) = .ok enclosing ∧
    Document.parse (String.join ("<saml:Assertion xmlns='urn:r' ID='a'" ::
      " xmlns:ds='http://www.w3.org/2000/09/xmldsig#'" ::
      " xmlns:saml='urn:oasis:names:tc:SAML:2.0:assertion'>" :: assertionLines)) = .ok takenOut ∧
    enclosing.HasExcerpt 2 takenOut ∧
    (verify ⟨.publicKey sealingKey.publicKey, true⟩ takenOut).outcome = .ok true := by
  have read : Document.parse (String.join
      ("<r xmlns='urn:r' xmlns:ds='http://www.w3.org/2000/09/xmldsig#'" ::
        " xmlns:saml='urn:oasis:names:tc:SAML:2.0:assertion'><saml:Assertion ID='a'>" ::
        assertionLines ++ ["</r>"])) = .ok enclosing := by
    refine Document.parse_join ?_
    rw [assertionLines]
    simp only [List.cons_append, List.nil_append, List.flatMap_cons, List.flatMap_nil]
    -- the characters of a literal are at hand; to decode its bytes takes long
    repeat rw [String.toList_ofList]
    decide +kernel
  have read' : Document.parse (String.join ("<saml:Assertion xmlns='urn:r' ID='a'" ::
      " xmlns:ds='http://www.w3.org/2000/09/xmldsig#'" ::
      " xmlns:saml='urn:oasis:names:tc:SAML:2.0:assertion'>" :: assertionLines)) = .ok takenOut := by
    refine Document.parse_join ?_
    rw [assertionLines]
    simp only [List.flatMap_cons, List.flatMap_nil]
    repeat rw [String.toList_ofList]
    decide +kernel
  have linked := (Document.Reachable.parse read).linked
  have linked' := (Document.Reachable.parse read').linked
  have excerpt : enclosing.HasExcerpt 2 takenOut :=
    ⟨1, _, _, rfl, rfl, by decide +kernel, rfl, _, _, Document.shows_children linked 2,
      Document.shows_children linked' 1, by decide +kernel⟩
  have located : Site.locate enclosing 3 .assertion = .ok enclosedSite := rfl
  refine ⟨read, read', excerpt, ?_⟩
  rw [verify_excerpt (.parse read) (.parse read') (s := 3) rfl rfl (fun b hb => nomatch hb) excerpt]
  exact bind_eq_ok_iff.2 ⟨_, located, bind_eq_ok_iff.2
    ⟨true, verifyDigest_enclosing _, (if_pos rfl).trans (verifyValue_enclosing true)⟩⟩

/-! ### The unsigned part of a signature -/

namespace Xml.Document

variable {d d' : Document}

/-- Two documents are the same except inside the first signature of their document elements, where
they agree in what is trusted. -/
def SameButSignature (d d' : Document) : Prop :=
  AtFirst d.isElement (SameTree d d')
    (fun r r' => d'.kind? r' = d.kind? r ∧ SameInside d d' r r') (d.children root)
    (d'.children root)

/-- An element has one name only. -/
theorem isNamed_eq_false {uri uri' name name' : String} (ne : name' ≠ name) {x : NodeId}
    (h : d.isNamed uri name x = true) : d.isNamed uri' name' x = false := by
  obtain ⟨e, he⟩ := isElement_iff.1 (isElement_of_isNamed h)
  rw [isNamed, he] at h ⊢
  simp only [Bool.and_eq_true, beq_iff_eq] at h
  have other : (e.name.localName == name') = false := by simpa [h.1] using ne.symm
  dsimp only
  rw [other, Bool.false_and]

/-- The document elements are the same but for the first signatures in them. -/
theorem SameButSignature.rootElement? (linked : d.Linked) (linked' : d'.Linked)
    (h : SameButSignature d d') :
    Option.Rel (fun r r' => (∃ e, d.element? r = some e ∧ d'.element? r' = some e) ∧
      d'.scopeAt r' = d.scopeAt r ∧ SameInside d d' r r') d.rootElement? d'.rootElement? := by
  have sameR {x y : NodeId} (same : SameTree d d' x y) := mirrorsBelow_sameTree.isElement_eq same
  rw [Document.rootElement?, Document.rootElement?]
  rcases rel_cases (AtFirst.find? h sameR fun same => by
    rw [isElement, isElement, element?, element?, same.1]) with
    ⟨none, none'⟩ | ⟨r, r', hr, hr', kind, below⟩
  · rw [none, none']
    exact .none
  rw [hr, hr']
  obtain ⟨e, he⟩ := isElement_iff.1 (List.find?_some hr)
  have he' : d'.element? r' = some e := by rw [element?, kind, ← element?, he]
  refine .some ⟨⟨e, he, he'⟩, ?_, below⟩
  rw [scopeAt_of_element linked he, scopeAt_of_element linked' he',
    scopeAround_of_mem_root linked (List.mem_of_find?_eq_some hr),
    scopeAround_of_mem_root linked' (List.mem_of_find?_eq_some hr')]

/-- The first assertions in the document elements are the same. -/
theorem SameInside.assertion {r r' : NodeId} (below : SameInside d d' r r') :
    Option.Rel (SameTree d d') (d.childElement? r Namespace.samlAssertion ElementName.assertion)
      (d'.childElement? r' Namespace.samlAssertion ElementName.assertion) := by
  refine AtFirst.find?_other below (fun same => mirrorsBelow_sameTree.isNamed_eq same _ _)
    fun {s s'} named same => ?_
  have differs : ElementName.assertion ≠ ElementName.signature := by decide
  exact ⟨isNamed_eq_false differs named,
    isNamed_eq_false differs ((same.isNamed_eq _ _).trans named)⟩

/-- The signatures of the first assertions sign the same. -/
theorem SameInside.assertionSignature? (linked : d.Linked) (linked' : d'.Linked) {r r' : NodeId}
    (below : SameInside d d' r r') (scope : d'.scopeAt r' = d.scopeAt r)
    (hr : d.rootElement? = some r) (hr' : d'.rootElement? = some r') :
    Option.Rel (fun s s' => ∃ a a', SameSigned d d' a s a' s') d.assertionSignature?
      d'.assertionSignature? := by
  rw [Document.assertionSignature?, Document.assertionSignature?, hr, hr']
  simp only [bind, Option.bind_some]
  rcases rel_cases below.assertion with ⟨none, none'⟩ | ⟨a, a', ha, ha', copy⟩
  · rw [none, none']
    exact .none
  rw [ha, ha', Option.bind_some, Option.bind_some]
  obtain ⟨e, he⟩ := isElement_iff.1 (isElement_of_isNamed (List.find?_some ha))
  obtain ⟨-, -, -, inside⟩ := sameTree_iff.1 copy
  have signed := sameSigned_of_sameTrees linked linked' he (copy.element he) rfl rfl
    (copy.scope linked linked' (List.mem_of_find?_eq_some ha) (List.mem_of_find?_eq_some ha')
      fun q => by rw [scope]) inside
  exact rel_imp signed fun same => ⟨a, a', same⟩

end Xml.Document

/-- What is inside the signature of a message besides the signed information and the signature value
is not trusted: whatever stands there, the verdict is the same, and so is every event on the way. -/
theorem verify_eq_of_sameButSignature {d d' : Document} (hd : d.Reachable) (hd' : d'.Reachable)
    (same : d.SameButSignature d') (ctx : Context) : verify ctx d' = verify ctx d := by
  have linked := hd.linked
  have linked' := hd'.linked
  rcases Document.rel_cases (same.rootElement? linked linked') with
    ⟨none, none'⟩ | ⟨r, r', hr, hr', ⟨e, he, he'⟩, scope, below⟩
  · -- without a document element there is nothing to verify
    have root : Agree (Option.Rel fun _ _ => False) d.rootSignature d'.rootSignature := by
      rw [Document.rootSignature, Document.rootSignature, none, none']
      exact .error _
    have assertion : Option.Rel (fun _ _ => False) d.assertionSignature?
        d'.assertionSignature? := by
      rw [Document.assertionSignature?, Document.assertionSignature?, none, none']
      exact .none
    exact verify_congr root assertion False.elim
  · have root : Agree (Option.Rel fun s s' => ∃ p p', d.SameSigned d' p s p' s')
        d.rootSignature d'.rootSignature := by
      rw [Document.rootSignature, Document.rootSignature, hr, hr']
      have signed := Document.sameSigned_of_sameInside linked linked' he he' rfl rfl
        (fun q => by rw [scope]) below
      exact .ok (Document.rel_imp signed fun same => ⟨r, r', same⟩)
    have assertion := below.assertionSignature? linked linked' scope hr hr'
    refine verify_congr root assertion ?_
    rintro s s' ⟨p, p', signed⟩ kind
    exact signed.verifySite_eq linked linked' kind ctx

/-- The message `sealed` with a key in its signature, and with white space after the signature
value. -/
def extendedSeal : Document :=
  let keyInfo : Kind := .element ⟨⟨some "ds", "KeyInfo", some Namespace.dsig⟩, [], []⟩
  ((sealed.appendChild 2 keyInfo).appendChild 15 (.text "k")).appendChild 13 (.text " ")

/-- `extendedSeal` with a name for the signature. -/
def annotatedSeal : Document := extendedSeal.replaceElement 2
  ⟨⟨some "ds", "Signature", some Namespace.dsig⟩, [⟨⟨none, "Id", none⟩, "s"⟩], []⟩

theorem verify_annotatedSeal : sealed.SameButSignature annotatedSeal ∧
    (verify ⟨.publicKey sealingKey.publicKey, true⟩ annotatedSeal).outcome = .ok true := by
  have reachable : sealed.Reachable := .parse parse_sealed
  have annotated : annotatedSeal.Reachable := by
    have keyInfo := reachable.appendChild (show 2 < 15 by decide)
      (.element ⟨⟨some "ds", "KeyInfo", some Namespace.dsig⟩, [], []⟩)
    have content := keyInfo.appendChild (show 15 < 16 by decide) (.text "k")
    have space := content.appendChild (show 13 < 17 by decide) (.text " ")
    have named : extendedSeal.setAttribute 2 "Id" "s" = .ok annotatedSeal := rfl
    exact .setAttribute space named
  have info : sealed.SameTree annotatedSeal 3 3 :=
    ⟨_, _, Document.shows_singleton reachable.linked rfl,
      Document.shows_singleton annotated.linked rfl, by decide +kernel⟩
  have same : sealed.SameButSignature annotatedSeal :=
    .first (x := 1) (y := 1) rfl ⟨rfl, .first (x := 2) (y := 2) rfl
      ⟨⟨_, _, rfl, rfl, rfl, rfl⟩, .some info, by decide +kernel⟩ .nil⟩ .nil
  refine ⟨same, ?_⟩
  rw [verify_eq_of_sameButSignature reachable annotated same]
  exact verify_sealed true

end SamlSeal
