import SamlSeal.Proofs.Numbering
import SamlSeal.Proofs.Removal
import SamlSeal.Proofs.Signing

/-!
# Comments

A message can be read with its comments or without them.  What verifying reads off it must not
depend on this, or else a comment could cut a value in two for one reader and not for the other.

* `filter_children_removing`: who looks for elements does not meet comments,
* `text_removing`: the text around a comment is one text,
* `canonical_removing_comments`: a canonical form without comments is that of the document without
  comments,
* `verify_removing`: as long as no algorithm asks for comments, verifying does not see them.
-/

namespace SamlSeal

open Xml

namespace Xml.Document

open Canonical

variable {d : Document} {gone : NodeId → Bool}

/-- Whether a node is a comment. -/
def isComment (d : Document) (id : NodeId) : Bool :=
  match d.kind? id with
  | some (.comment _) => true
  | _ => false

theorem isComment_iff {x : NodeId} :
    d.isComment x = true ↔ ∃ content, d.kind? x = some (.comment content) := by
  rw [isComment]
  cases d.kind? x with
  | none => simp
  | some k => cases k <;> simp

theorem isElement_of_isComment {x : NodeId} (h : d.isComment x = true) : d.isElement x = false := by
  obtain ⟨content, hk⟩ := isComment_iff.1 h
  exact isElement_of_kind? hk

/-- No algorithm that a document names asks for comments. -/
def CommentsUnasked (d : Document) : Prop :=
  ∀ x, d.Below root x →
    d.attribute? x AttributeName.algorithm ≠ some Algorithm.exclusiveWithComments

theorem CommentsUnasked.mode_eq (unasked : d.CommentsUnasked) {x : NodeId} (hx : d.Below root x)
    {mode : Mode} (h : d.attribute? x AttributeName.algorithm = some mode.uri) :
    mode = .exclusive := by
  cases mode with
  | exclusive => rfl
  | exclusiveWithComments => exact absurd h (unasked x hx)

/-! ### Questions that do not meet comments -/

section Silent

variable (silent : ∀ x, gone x = true → d.isComment x = true)

include silent

theorem not_gone_of_element {x : NodeId} (element : d.isElement x = true) : gone x = false := by
  cases out : gone x with
  | false => rfl
  | true =>
    rw [isElement_of_isComment (silent x out)] at element
    cases element

theorem filter_children_removing {test : NodeId → Bool}
    (elements : ∀ x, test x = true → d.isElement x = true) (p : NodeId) :
    ((d.removing gone).children p).filter test = (d.children p).filter test := by
  rw [children_removing, List.filter_filter]
  refine List.filter_congr fun x _ => ?_
  cases passes : test x with
  | false => rfl
  | true => rw [not_gone_of_element silent (elements x passes), Bool.not_false, Bool.true_and]

theorem find?_children_removing {test : NodeId → Bool}
    (elements : ∀ x, test x = true → d.isElement x = true) (p : NodeId) :
    ((d.removing gone).children p).find? test = (d.children p).find? test := by
  rw [← List.head?_filter, filter_children_removing silent elements, List.head?_filter]

theorem text_removing (x : NodeId) : (d.removing gone).text x = d.text x := by
  rw [text, children_removing, text]
  simp only [kind?_removing]
  refine congrArg String.ofList ?_
  induction d.children x with
  | nil => rfl
  | cons c cs ih =>
    cases out : gone c with
    | false => rw [List.filter_cons_of_pos (by rw [out, Bool.not_false]), List.flatMap_cons,
        List.flatMap_cons, ih]
    | true =>
      obtain ⟨content, hk⟩ := isComment_iff.1 (silent c out)
      rw [List.filter_cons_of_neg (by simp [out]), List.flatMap_cons, ih, hk]
      rfl

theorem sameLookups_removing : SameLookups d (d.removing gone) := by
  have isNamed : (d.removing gone).isNamed = d.isNamed := by
    funext uri name x
    rw [Document.isNamed, element?_removing, Document.isNamed]
  refine ⟨fun x uri name => ?_, fun x uri name => ?_, fun x name => ?_, fun x => ?_, fun x => ?_⟩
  · rw [childElement?, isNamed, childElement?]
    exact find?_children_removing silent (fun _ => isElement_of_isNamed) x
  · rw [childElements, isNamed, childElements]
    exact filter_children_removing silent (fun _ => isElement_of_isNamed) x
  · simp only [childNamed?, element?_removing]
    refine find?_children_removing silent (fun y passes => ?_) x
    split at passes
    · next e he => exact isElement_iff.2 ⟨e, he⟩
    · cases passes
  · rw [attribute?_removing]
  · rw [attribute?_removing]

theorem rootElement?_removing : (d.removing gone).rootElement? = d.rootElement? := by
  rw [rootElement?, isElement_removing, rootElement?]
  exact find?_children_removing silent (fun _ => id) root

theorem rootSignature_removing : (d.removing gone).rootSignature = d.rootSignature := by
  simp only [rootSignature, rootElement?_removing silent, (sameLookups_removing silent).first]

theorem assertionSignature?_removing :
    (d.removing gone).assertionSignature? = d.assertionSignature? := by
  simp only [assertionSignature?, rootElement?_removing silent, (sameLookups_removing silent).first]

theorem unwrapped_removing (x : NodeId) : (d.removing gone).unwrapped x = d.unwrapped x := by
  rw [unwrapped, text_removing silent, unwrapped]

/-! ### Canonical forms without comments -/

theorem unwritten_of_silent (excluded : Option NodeId) : d.Unwritten excluded false gone where
  skipped x out := .inr ⟨rfl, isComment_iff.1 (silent x out)⟩
  inside x p out element := by
    rw [isElement_of_isComment (silent x out)] at element
    cases element

end Silent

/-- Where there are no comments it does not matter whether they are asked for. -/
theorem retain_of_no_comment {f : Forest (NodeId × Kind)}
    (none : ∀ label ∈ f.labels, ∀ content, label.2 ≠ .comment content) (excluded : Option NodeId)
    (comments : Bool) (place : Place) :
    retain excluded comments place f = retain excluded false place f := by
  induction f generalizing place with
  | nil => rfl
  | node label inner next ihInner ihNext =>
    obtain ⟨id, kind⟩ := label
    obtain ⟨here, below⟩ := List.forall_mem_cons.1 none
    have inside := ihInner fun label hl => below label (List.mem_append_left _ hl)
    have after := ihNext fun label hl => below label (List.mem_append_right _ hl)
    rw [retain_node, retain_node]
    cases kind with
    | comment content => exact absurd rfl (here content)
    | _ => simp only [inside, after]

/-- A canonical form without comments is that of the document without comments, in which comments
can be asked for or not. -/
theorem canonical_removing_comments (linked : d.Linked) {apex : NodeId}
    (stays : d.Stays d.isComment apex) (excluded : Option NodeId) (comments : Bool)
    (inclusive : List String) :
    (d.removing d.isComment).canonical apex excluded comments inclusive =
      d.canonical apex excluded false inclusive := by
  have linked' := linked.removing d.isComment
  rw [← canonical_removing stays linked (unwritten_of_silent (fun _ => id) excluded), canonical,
    canonical]
  cases hk : (d.removing d.isComment).kind? apex with
  | none => rfl
  | some k =>
    have shows := shows_singleton linked' hk
    rw [Document.rendered, Document.rendered, retained, retained, retain_of_no_comment ?_]
    rintro ⟨x, kind⟩ hl content rfl
    obtain ⟨a, ha, below⟩ := exists_below_of_shows linked' shows hl
    obtain ⟨-, left⟩ := below_of_removing linked below (List.mem_singleton.1 ha ▸ stays)
    have comment := kind?_of_shows shows hl
    rw [kind?_removing] at comment
    exact left x (isComment_iff.2 ⟨content, comment⟩) .refl

end Xml.Document

/-! ### Verdicts -/

/-- What follows a result only has to be the same for the results that there are. -/
theorem Traced.bind_congr {α β : Type} {x : Traced α} {f g : α → Traced β}
    (h : ∀ a, x.outcome = .ok a → f a = g a) : x >>= f = x >>= g := by
  cases out : x.outcome with
  | ok a => rw [bind_of_ok f out, bind_of_ok g out, h a out]
  | error e => rw [bind_of_error f out, bind_of_error g out]

/-- A node of the document is not removed. -/
def Xml.Document.Remains (d : Document) (gone : NodeId → Bool) (x : NodeId) : Prop :=
  d.Stays gone x ∧ d.Below Document.root x

section Verdict

open Xml.Document

variable {d : Document} {gone : NodeId → Bool} {site : Site}
  (silent : ∀ x, gone x = true → d.isComment x = true) (linked : d.Linked)

include silent linked

theorem remains_root : d.Remains gone Document.root := by
  refine ⟨?_, .refl⟩
  intro x out above
  obtain rfl : x = Document.root := Nat.le_zero.1 (above.le linked)
  obtain ⟨content, comment⟩ := isComment_iff.1 (silent Document.root out)
  rw [linked.root_kind] at comment
  cases comment

/-- Whoever goes from element to element does not meet a removed node. -/
theorem remains_child {p c : NodeId} (remains : d.Remains gone p) (hc : c ∈ d.children p)
    (element : ∃ e, d.element? c = some e) : d.Remains gone c :=
  ⟨remains.1.child linked hc (not_gone_of_element silent (isElement_iff.2 element)),
    remains.2.child linked hc⟩

variable (unasked : d.CommentsUnasked)

include unasked

theorem signedInfoForm_removing {info : NodeId} (remains : d.Remains gone info) :
    signedInfoForm (d.removing gone) info = signedInfoForm d info := by
  rw [signedInfoForm, (sameLookups_removing silent).algorithmOf_eq, signedInfoForm]
  cases named : d.algorithmOf info ElementName.canonicalizationMethod with
  | error e => rfl
  | ok uri =>
    cases known : Mode.ofUri? uri with
    | none => simp only [bind, Except.bind, known]
    | some mode =>
      obtain ⟨c, first, algorithm⟩ := algorithmOf_eq_ok_iff.1 named
      rw [Mode.ofUri?_eq_some_iff.1 known, ← attribute?_eq_some_iff] at algorithm
      obtain rfl := unasked.mode_eq (remains.2.child linked first.mem.1) algorithm
      simp only [bind, Except.bind, known]
      exact canonical_removing remains.1 linked (unwritten_of_silent silent none) []

namespace Site

variable (placed : site.Placed d) (remains : d.Remains gone site.signature)

include placed remains

theorem computeDigest_removing (ctx : Context) :
    site.computeDigest ctx (d.removing gone) = site.computeDigest ctx d := by
  have lookups := sameLookups_removing silent
  have linkage : Reference.checkLinkage (d.removing gone) site = Reference.checkLinkage d site := by
    simp only [Reference.checkLinkage, attribute?_removing]
  simp only [computeDigest, linkage, lookups.transforms_eq, lookups.algorithmOf_eq]
  refine congrArg (_ >>= ·) (funext fun _ => Traced.bind_congr fun t ht => ?_)
  -- the second transform does not ask for comments
  obtain ⟨list, first, second, hlist, pair, -, algorithm, -⟩ :=
    (Reference.transforms_eq_ok_iff linked).1 ht
  have reference := remains.2.trans (placed.below_reference linked)
  have second_mem : second ∈ d.children list :=
    pair.1.subset (List.mem_cons_of_mem _ List.mem_cons_self)
  have mode := unasked.mode_eq ((reference.child linked hlist.mem.1).child linked second_mem)
    (attribute?_eq_some_iff.2 algorithm)
  have form : site.signedForm (d.removing gone) t = site.signedForm d t := by
    rw [signedForm, signedForm, mode]
    exact canonical_removing (remains.1.parent (linked.mem_children_iff.1 placed.held)) linked
      (unwritten_of_silent silent _) t.inclusive
  rw [form]

theorem verifyDigest_removing (ctx : Context) :
    site.verifyDigest ctx (d.removing gone) = site.verifyDigest ctx d := by
  simp only [verifyDigest, computeDigest_removing silent linked unasked placed remains,
    (sameLookups_removing silent).requiredChild_eq, unwrapped_removing silent]

theorem verifyValue_removing (ctx : Context) :
    site.verifyValue ctx (d.removing gone) = site.verifyValue ctx d := by
  have info := placed.signedInfo.mem
  have form : signedInfoForm (d.removing gone) site.signedInfo = signedInfoForm d site.signedInfo :=
    signedInfoForm_removing silent linked unasked
      (remains_child silent linked remains info.1 info.2.element)
  simp only [verifyValue, signedInput, valueBytes, (sameLookups_removing silent).algorithmOf_eq,
    form, unwrapped_removing silent]

end Site

/-- The signature of an element is checked alike with comments and without them. -/
theorem verifySite_removing {p s : NodeId} (remains : d.Remains gone p)
    (element : ∃ e, d.element? p = some e)
    (hs : d.FirstChild p (d.Named Namespace.dsig ElementName.signature) s) (kind : SiteKind)
    (ctx : Context) : verifySite ctx (d.removing gone) kind s = verifySite ctx d kind s := by
  have lookups := sameLookups_removing silent
  have signature := remains_child silent linked remains hs.mem.1 hs.mem.2.element
  have located : Site.locate (d.removing gone) s kind = Site.locate d s kind := by
    simp only [Site.locate, Site.holder, signature.1.parent?_removing, isElement_removing,
      lookups.requiredChild_eq, lookups.onlyReference_eq]
  rw [verifySite, located, verifySite]
  refine Traced.bind_congr fun site hsite => ?_
  obtain ⟨e, he⟩ := element
  obtain ⟨placed, rfl, rfl⟩ := Site.Placed.of_locate linked he hs.mem.1 hsite
  simp only [Site.verifyDigest_removing silent linked unasked placed signature,
    Site.verifyValue_removing silent linked unasked placed signature]

theorem verifyAssertion_removing (ctx : Context) :
    verifyAssertion ctx (d.removing gone) = verifyAssertion ctx d := by
  rw [verifyAssertion, assertionSignature?_removing silent, verifyAssertion]
  cases found : d.assertionSignature? with
  | none => rfl
  | some s =>
    obtain ⟨r, a, hr, ha, hs⟩ := assertionSignature?_eq_some_iff.1 found
    have root := remains_child silent linked (remains_root silent linked) hr.mem.1 hr.mem.2
    have assertion := remains_child silent linked root ha.mem.1 ha.mem.2.element
    exact verifySite_removing silent linked unasked assertion ha.mem.2.element hs .assertion ctx

/-- As long as no algorithm asks for comments, verifying does not see which of them are there. -/
theorem verify_removing (ctx : Context) : verify ctx (d.removing gone) = verify ctx d := by
  rw [verify, rootSignature_removing silent, verifyAssertion_removing silent linked unasked, verify]
  refine Traced.bind_congr fun found hfound => ?_
  cases found with
  | none => rfl
  | some s =>
    obtain ⟨r, hr, hs⟩ := rootSignature_eq_some_iff.1 hfound
    have root := remains_child silent linked (remains_root silent linked) hr.mem.1 hr.mem.2
    dsimp only
    rw [verifySite_removing silent linked unasked root hr.mem.2 hs]

end Verdict

/-- **Comments do not matter.**  If no algorithm of a document asks for comments, then any of them
can be removed, wherever they stand, and verifying gives the same answer or fault with the same
events on the way.  A canonical form without comments is that of the document with all comments
removed, whether they are asked for there or not. -/
theorem verify_without_comments {d : Document} (hd : d.Reachable) :
    (d.CommentsUnasked → ∀ gone : NodeId → Bool, (∀ x, gone x = true → d.isComment x = true) →
      ∀ ctx, verify ctx (d.removing gone) = verify ctx d) ∧
    ∀ apex, d.Stays d.isComment apex → ∀ excluded comments inclusive,
      (d.removing d.isComment).canonical apex excluded comments inclusive =
        d.canonical apex excluded false inclusive := by
  constructor
  · intro unasked gone silent ctx
    exact verify_removing silent hd.linked unasked ctx
  · intro apex stays excluded comments inclusive
    exact Document.canonical_removing_comments hd.linked stays excluded comments inclusive

/-- `sealed` with comments around and in it, also inside its digest and its value. -/
def commented : Document := ⟨#[
  ⟨.document, none, [1, 2]⟩,
  ⟨.comment "0", some 0, []⟩,
  ⟨.element ⟨⟨none, "r", none⟩, [⟨⟨none, "ID", none⟩, "i"⟩, ⟨⟨none, "IssueInstant", none⟩, "t"⟩],
    [⟨"ds", Namespace.dsig⟩]⟩, some 0, [3, 4]⟩,
  ⟨.comment "1", some 2, []⟩,
  signatureRow 2 "Signature" [5, 19] [],
  signatureRow 4 "SignedInfo" [6, 7, 8, 9] [],
  ⟨.comment "2", some 5, []⟩,
  signatureRow 5 "CanonicalizationMethod" [] [("Algorithm", Algorithm.exclusive)],
  signatureRow 5 "SignatureMethod" [] [("Algorithm", Algorithm.rsaSha1)],
  signatureRow 5 "Reference" [10, 14, 15] [("URI", "#i")],
  signatureRow 9 "Transforms" [11, 12, 13] [],
  ⟨.comment "3", some 10, []⟩,
  signatureRow 10 "Transform" [] [("Algorithm", Algorithm.enveloped)],
  signatureRow 10 "Transform" [] [("Algorithm", Algorithm.exclusive)],
  signatureRow 9 "DigestMethod" [] [("Algorithm", Algorithm.sha1)],
  signatureRow 9 "DigestValue" [16, 17, 18] [],
  ⟨.text "5rdBRe7hp42X", some 15, []⟩,
  ⟨.comment "4", some 15, []⟩,
  ⟨.text "M+fYQlHBeOL9K04=", some 15, []⟩,
  signatureRow 4 "SignatureValue" [20, 21, 22] [],
  ⟨.text "GQL68VkXOLTAwVC8TagybnFfgfB+Tg+gs", some 19, []⟩,
  ⟨.comment "5", some 19, []⟩,
  ⟨.text "ENOpThvgohYyGHUkLi94uYPnX9kwQ==", some 19, []⟩]⟩

set_option maxRecDepth 10000 in
theorem parse_commented : Document.parse (String.join
    ["<!--0--><r xmlns:ds='http://www.w3.org/2000/09/xmldsig#' ID='i' IssueInstant='t'><!--1-->",
      "<ds:Signature><ds:SignedInfo><!--2-->",
      "<ds:CanonicalizationMethod Algorithm='http://www.w3.org/2001/10/xml-exc-c14n#'/>",
      "<ds:SignatureMethod Algorithm='http://www.w3.org/2000/09/xmldsig#rsa-sha1'/>",
      "<ds:Reference URI='#i'><ds:Transforms><!--3-->",
      "<ds:Transform Algorithm='http://www.w3.org/2000/09/xmldsig#enveloped-signature'/>",
      "<ds:Transform Algorithm='http://www.w3.org/2001/10/xml-exc-c14n#'/></ds:Transforms>",
      "<ds:DigestMethod Algorithm='http://www.w3.org/2000/09/xmldsig#sha1'/>",
      "<ds:DigestValue>5rdBRe7hp42X<!--4-->M+fYQlHBeOL9K04=</ds:DigestValue>",
      "</ds:Reference></ds:SignedInfo>",
      "<ds:SignatureValue>GQL68VkXOLTAwVC8TagybnFfgfB+Tg+gs<!--5-->ENOpThvgohYyGHUkLi94uYPnX9kwQ==",
      "</ds:SignatureValue></ds:Signature></r>"]) = .ok commented := by
  refine Document.parse_join ?_
  simp only [List.flatMap_cons, List.flatMap_nil]
  repeat rw [String.toList_ofList]
  decide +kernel

theorem verify_commented : (verify ⟨.publicKey sealingKey.publicKey, false⟩ commented).outcome =
    .ok true := by
  refine verify_eq_true_iff.2 ⟨4, rfl, rfl, verifySite_eq_true_iff.2
    ⟨⟨.root, 4, 2, 5, 9, 19⟩, rfl, ?_, ?_⟩⟩
  · have element : Canonical.write (commented.rendered 2 (some 4) false []) = sealedForm := by
      decide +kernel
    have held : commented.unwrapped 15 = "5rdBRe7hp42XM+fYQlHBeOL9K04=".toList := by
      rw [Document.unwrapped, Document.text, String.toList_ofList]
      decide +kernel
    exact Site.verifyDigest_eq_true_iff.2 ⟨_, Site.computeDigest_eq_ok_iff.2
      ⟨rfl, ⟨.exclusive, none⟩, rfl, .sha1, rfl, _, Document.canonical_eq_ok rfl element, rfl⟩, 15,
      rfl, congrArg _ (digest_sealed.trans held.symm)⟩
  · have info : Canonical.write (commented.rendered 5 none false []) =
        Canonical.write (sealed.rendered 3 none false []) := by
      decide +kernel
    have form : signedInfoForm commented 5 =
        .ok (String.ofList (Canonical.write (sealed.rendered 3 none false []))) :=
      signedInfoForm_eq_ok_iff.2 ⟨.exclusive, rfl, Document.canonical_eq_ok rfl info⟩
    have held : Base64.decode? (commented.unwrapped 19) =
        some (BigEndian.ofNat 46 sealedValue) := by
      rw [Document.unwrapped, Document.text, String.toList_ofList]
      decide +kernel
    exact Site.verifyValue_eq_true_iff.2
      ⟨.rsaSha1, _, Site.signedInput_eq_ok_iff.2 ⟨rfl, form⟩, _, held, value_sealed⟩

theorem verify_without_comments_commented : commented.Reachable ∧ commented.CommentsUnasked ∧
    (verify ⟨.publicKey sealingKey.publicKey, false⟩ (commented.removing (· == 17))).outcome =
      .ok true ∧
    (verify ⟨.publicKey sealingKey.publicKey, false⟩
      (commented.removing commented.isComment)).outcome = .ok true ∧
    (commented.removing commented.isComment).canonical 0 none true [] =
      commented.canonical 0 none false [] := by
  have reachable : commented.Reachable := .parse parse_commented
  have unasked : commented.CommentsUnasked := by
    have rows : ∀ x < 23, commented.attribute? x AttributeName.algorithm ≠
        some Algorithm.exclusiveWithComments := by
      decide +kernel
    intro x _ asked
    obtain ⟨e, he, -⟩ := Option.bind_eq_some_iff.1 asked
    exact rows x (Document.lt_size_of_element? he) asked
  obtain ⟨verdict, form⟩ := verify_without_comments reachable
  refine ⟨reachable, unasked, ?_, ?_, form 0 ?_ none true []⟩
  · rw [verdict unasked (· == 17) (fun x hx => by rw [eq_of_beq hx]; rfl)]
    exact verify_commented
  · rw [verdict unasked commented.isComment fun _ => id]
    exact verify_commented
  · intro x comment below
    obtain rfl : x = 0 := Nat.le_zero.1 (below.le reachable.linked)
    cases comment

end SamlSeal
