import SamlSeal.Proofs.Locality
import SamlSeal.Signature.Sign

/-!
# Signing and verifying

A message that was signed is accepted.  Between the two lie three attributes and two texts that
signing puts in, each of them after something was hashed that must not change any more:

* the attributes are set before anything is hashed, outside the assertion,
* the digest goes into the signature, which the signed element is written without,
* the value goes next to the signed information and not below it.

`Site.Placed` says that a site is what locating its signature finds, and both `produceDigest` and
`produceValue` keep it.
-/

namespace SamlSeal

open Xml

variable {ctx ctx' : Context} {d d' d₁ d₂ d₃ : Document} {site : Site}

/-! ### Placed sites -/

/-- A site holds the parts of a signature of a document. -/
structure Site.Placed (d : Document) (site : Site) : Prop where
  element : ∃ e, d.element? site.parent = some e
  held : site.signature ∈ d.children site.parent
  signedInfo :
    d.FirstChild site.signature (d.Named Namespace.dsig ElementName.signedInfo) site.signedInfo
  only : d.Lists site.signedInfo (d.Named Namespace.dsig ElementName.reference) [site.reference]
  signatureValue :
    d.FirstChild site.signature (d.Named Namespace.dsig ElementName.signatureValue)
      site.signatureValue

namespace Site.Placed

theorem of_locate (hd : d.Linked) {signature parent : NodeId} {kind : SiteKind} {e : Element}
    (he : d.element? parent = some e) (hs : signature ∈ d.children parent)
    (h : locate d signature kind = .ok site) :
    site.Placed d ∧ site.signature = signature ∧ site.parent = parent := by
  obtain ⟨-, rfl, rfl, info, only, value⟩ := (locate_eq_ok_iff hd he hs).1 h
  exact ⟨⟨⟨e, he⟩, hs, info, only, value⟩, rfl, rfl⟩

theorem reference_mem (h : site.Placed d) : site.reference ∈ d.children site.signedInfo :=
  h.only.1.subset List.mem_cons_self

theorem reference_named (h : site.Placed d) :
    d.Named Namespace.dsig ElementName.reference site.reference :=
  (h.only.2 _ h.reference_mem).1 List.mem_cons_self

theorem below_reference (hd : d.Linked) (h : site.Placed d) :
    d.Below site.signature site.reference :=
  (Document.Below.refl.child hd h.signedInfo.mem.1).child hd h.reference_mem

theorem below_signatureValue (hd : d.Linked) (h : site.Placed d) :
    d.Below site.signature site.signatureValue :=
  Document.Below.refl.child hd h.signatureValue.mem.1

theorem setAttribute {id : NodeId} {name value : String} (h : site.Placed d)
    (hs : d.setAttribute id name value = .ok d') : site.Placed d' where
  element := (Document.isElement_setAttribute hs _).2 h.element
  held := by
    rw [Document.children_setAttribute hs]
    exact h.held
  signedInfo := (Document.firstNamed_setAttribute hs).2 h.signedInfo
  only := (Document.lists_setAttribute hs).2 h.only
  signatureValue := (Document.firstNamed_setAttribute hs).2 h.signatureValue

/-- A text below the signature that replaces neither the signature's parts nor the reference. -/
theorem setText {id : NodeId} {content : String} (hd : d.Linked) (h : site.Placed d)
    (hs : d.setText id content = .ok d') (below : site.signature < id) (ne : id ≠ site.signedInfo) :
    site.Placed d' := by
  have lt := hd.child_lt h.held
  refine ⟨?_, ?_, ?_, ?_, ?_⟩
  · rw [Document.element?_setText hs]
    exact h.element
  · rw [Document.children_setText_of_ne hs (Nat.ne_of_lt (Nat.lt_trans lt below))]
    exact h.held
  · exact (Document.firstNamed_setText hs (Nat.ne_of_lt below)).2 h.signedInfo
  · exact (Document.lists_setText hs (Ne.symm ne)).2 h.only
  · exact (Document.firstNamed_setText hs (Nat.ne_of_lt below)).2 h.signatureValue

end Site.Placed

/-! ### Texts that leave the digest and the signed input as they are -/

section Frame

variable {x : NodeId} {name content : String}

/-- A text below the signature changes no digest, unless it replaces the transforms. -/
theorem Site.computeDigest_setText (hd : d.Linked) (placed : site.Placed d)
    (hx : d.Below site.signature x) (named : d.Named Namespace.dsig name x)
    (reference : name ≠ ElementName.reference) (transforms : name ≠ ElementName.transforms)
    (transform : name ≠ ElementName.transform) (h : d.setText x content = .ok d') {digest : String}
    (computed : (site.computeDigest ctx d).outcome = .ok digest) :
    (site.computeDigest ctx' d').outcome = .ok digest := by
  have hd' := hd.setText h
  simp only [computeDigest_eq_ok_iff, Reference.checkLinkage_eq_ok_iff,
    Reference.transforms_eq_ok_iff hd, Reference.transforms_eq_ok_iff hd',
    Document.algorithmOf_eq_ok_iff, signedForm] at computed ⊢
  obtain ⟨link, t, ⟨list, first, second, hlist, pair, enveloped, canonical, ht⟩, method,
    ⟨methodNode, digestMethod, hash⟩, form, written, rfl⟩ := computed
  obtain ⟨e, he⟩ := placed.element
  have reference_ne : site.reference ≠ x := placed.reference_named.ne named (Ne.symm reference)
  have list_ne : list ≠ x := hlist.mem.2.ne named (Ne.symm transforms)
  have mem : second ∈ [first, second] := List.mem_cons_of_mem _ List.mem_cons_self
  have second_ne : second ≠ x :=
    ((pair.2 second (pair.1.subset mem)).1 mem).ne named (Ne.symm transform)
  have taken : d.PrefixList second t.inclusive := Reference.inclusive_eq_iff.1 (by rw [← ht])
  have taken' : (Reference.Transforms.mk t.mode (Reference.prefixes d' second)).inclusive =
      t.inclusive := Reference.inclusive_eq_iff.2 (Document.prefixList_setText h second_ne taken)
  rw [Document.hasAttribute_setText h]
  refine ⟨link, ⟨t.mode, Reference.prefixes d' second⟩, ⟨list, first, second,
    (Document.firstNamed_setText h reference_ne).2 hlist,
    (Document.lists_setText h list_ne).2 pair, enveloped, canonical, rfl⟩, method,
    ⟨methodNode, (Document.firstNamed_setText h reference_ne).2 digestMethod, hash⟩, form, ?_, rfl⟩
  rw [taken', Document.canonical_setText_of_excluded h hd he placed.held hx]
  exact written

/-- A text next to the signed information leaves what is signed as it is. -/
theorem Site.signedInput_setText (hd : d.Linked) (placed : site.Placed d)
    (hx : x ∈ d.children site.signature) (named : d.Named Namespace.dsig name x)
    (ne : name ≠ ElementName.signedInfo) (h : d.setText x content = .ok d')
    {method : SignatureMethod} {form : String}
    (input : (site.signedInput ctx d).outcome = .ok (method, form)) :
    (site.signedInput ctx' d').outcome = .ok (method, form) := by
  obtain ⟨e, he⟩ := placed.signedInfo.mem.2.element
  have info_ne : site.signedInfo ≠ x := placed.signedInfo.mem.2.ne named (Ne.symm ne)
  have parent_info := hd.mem_children_iff.1 placed.signedInfo.mem.1
  have out : ¬ d.Below site.signedInfo x := fun below =>
    info_ne (below.eq_of_same_parent hd parent_info (hd.mem_children_iff.1 hx))
  have below := Document.sameBelow_setText h (Document.lt_size_of_element? he) out
  have around := Document.scopeAround_setText_of_parent h hd placed.signedInfo.mem.1
    (hd.child_lt hx)
  simp only [signedInput_eq_ok_iff, signedInfoForm_eq_ok_iff, Document.algorithmOf_eq_ok_iff]
    at input ⊢
  obtain ⟨⟨m, method, rsa⟩, mode, ⟨c, canonical, algorithm⟩, written⟩ := input
  rw [Document.hasAttribute_setText h]
  refine ⟨⟨m, (Document.firstNamed_setText h info_ne).2 method, rsa⟩, mode,
    ⟨c, (Document.firstNamed_setText h info_ne).2 canonical, algorithm⟩, ?_⟩
  rw [below.canonical hd (hd.setText h) around .refl he]
  · exact written
  · intro s hs
    cases hs

end Frame

/-! ### Putting in a digest and a value -/

namespace Site

/-- Producing a digest is computing it and putting it in. -/
theorem produceDigest_eq_ok_iff : (site.produceDigest ctx d).outcome = .ok d' ↔
    ∃ digest value, (site.computeDigest ctx d).outcome = .ok digest ∧
      d.FirstChild site.reference (d.Named Namespace.dsig ElementName.digestValue) value ∧
      d.setText value digest = .ok d' := by
  simp only [produceDigest, Traced.outcome_bind_eq_ok_iff, Traced.outcome_liftM,
    Traced.outcome_log, Document.requiredChild_eq_ok_iff]
  constructor
  · rintro ⟨digest, computed, value, first, -, -, set⟩
    exact ⟨digest, value, computed, first, set⟩
  · rintro ⟨digest, value, computed, first, set⟩
    exact ⟨digest, computed, value, first, (), trivial, set⟩

/-- Producing a value is signing the signed information and putting that in. -/
theorem produceValue_eq_ok_iff : (site.produceValue ctx d).outcome = .ok d' ↔
    ∃ method form value, (site.signedInput ctx d).outcome = .ok (method, form) ∧
      ctx.key.sign method (utf8 form) = .ok value ∧
      d.setText site.signatureValue (String.ofList (Base64.encode value)) = .ok d' := by
  simp only [produceValue, Traced.outcome_bind_eq_ok_iff, Traced.outcome_liftM]
  constructor
  · rintro ⟨⟨method, form⟩, input, value, signed, set⟩
    exact ⟨method, form, value, input, signed, set⟩
  · rintro ⟨method, form, value, input, signed, set⟩
    exact ⟨(method, form), input, value, signed, set⟩

/-- White space is no part of base64, so what is put in is what is read back. -/
theorem unwrapped_setText {x : NodeId} {bytes : Bytes}
    (h : d.setText x (String.ofList (Base64.encode bytes)) = .ok d') :
    d'.unwrapped x = Base64.encode bytes := by
  rw [Document.unwrapped, Document.text_setText h, String.toList_ofList, Base64.filter_encode]

/-- The place where a digest goes. -/
theorem Placed.below_digestValue (hd : d.Linked) (placed : site.Placed d) {value : NodeId}
    (first : d.FirstChild site.reference (d.Named Namespace.dsig ElementName.digestValue) value) :
    d.Below site.signature value :=
  (placed.below_reference hd).child hd first.mem.1

/-- The digest that was put in is the one that is computed then. -/
theorem verifyDigest_of_produceDigest (hd : d.Linked) (placed : site.Placed d)
    (h : (site.produceDigest ctx d).outcome = .ok d') :
    (site.verifyDigest ctx' d').outcome = .ok true := by
  obtain ⟨digest, value, computed, first, set⟩ := produceDigest_eq_ok_iff.1 h
  have below := placed.below_digestValue hd first
  have again : (site.computeDigest ctx' d').outcome = .ok digest :=
    computeDigest_setText hd placed below first.mem.2 (by decide) (by decide) (by decide) set
      computed
  have ne : site.reference ≠ value := placed.reference_named.ne first.mem.2 (by decide)
  obtain ⟨-, t, -, method, -, form, -, rfl⟩ := computeDigest_eq_ok_iff.1 computed
  refine verifyDigest_eq_true_iff.2 ⟨_, again, value, ?_, ?_⟩
  · exact Document.requiredChild_eq_ok_iff.2 ((Document.firstNamed_setText set ne).2 first)
  · rw [unwrapped_setText set]

/-- A digest stays right when the value of the signature is put in. -/
theorem verifyDigest_setText (hd : d.Linked) (placed : site.Placed d) {content : String}
    (h : d.setText site.signatureValue content = .ok d')
    (verified : (site.verifyDigest ctx d).outcome = .ok true) :
    (site.verifyDigest ctx' d').outcome = .ok true := by
  have named := placed.signatureValue.mem.2
  obtain ⟨digest, computed, value, required, eq⟩ := verifyDigest_eq_true_iff.1 verified
  have first := Document.requiredChild_eq_ok_iff.1 required
  have again : (site.computeDigest ctx' d').outcome = .ok digest :=
    computeDigest_setText hd placed (placed.below_signatureValue hd) named (by decide) (by decide)
      (by decide) h computed
  have reference_ne : site.reference ≠ site.signatureValue :=
    placed.reference_named.ne named (by decide)
  have value_ne : value ≠ site.signatureValue := first.mem.2.ne named (by decide)
  refine verifyDigest_eq_true_iff.2 ⟨digest, again, value, ?_, ?_⟩
  · exact Document.requiredChild_eq_ok_iff.2
      ((Document.firstNamed_setText h reference_ne).2 first)
  · rw [Document.unwrapped, Document.text_setText_of_ne h hd value_ne]
    exact eq

/-- The value that was put in is a signature of what is signed then. -/
theorem verifyValue_of_produceValue (hd : d.Linked) (placed : site.Placed d)
    (same : ctx'.key.toPublic = ctx.key.toPublic)
    (h : (site.produceValue ctx d).outcome = .ok d') :
    (site.verifyValue ctx' d').outcome = .ok true := by
  obtain ⟨method, form, value, input, signed, set⟩ := produceValue_eq_ok_iff.1 h
  have again : (site.signedInput ctx' d').outcome = .ok (method, form) :=
    signedInput_setText hd placed placed.signatureValue.mem.1 placed.signatureValue.mem.2
      (by decide) set input
  refine verifyValue_eq_true_iff.2 ⟨method, form, again, value, ?_, Key.verify_of_sign signed same⟩
  rw [unwrapped_setText set, Base64.decode?_eq_some_iff]

end Site

/-! ### What signing leaves alone -/

/-- A step of signing keeps the site, the names of all elements, and everything that stands next to
the signature. -/
structure Site.Spares (site : Site) (d d' : Document) : Prop where
  linked : d'.Linked
  placed : site.Placed d'
  elements : ∀ c, (∃ e, d'.element? c = some e) ↔ ∃ e, d.element? c = some e
  names : d'.Named = d.Named
  outer : d'.children Document.root = d.children Document.root
  children : d'.children site.parent = d.children site.parent
  others : ∀ a ∈ d.children site.parent, a ≠ site.signature →
    d.SameBelow d' a ∧ d'.scopeAround a = d.scopeAround a

namespace Site.Spares

theorem trans (hd : d.Linked) (h : site.Spares d d₁) (h' : site.Spares d₁ d₂) :
    site.Spares d d₂ where
  linked := h'.linked
  placed := h'.placed
  elements c := (h'.elements c).trans (h.elements c)
  names := h'.names.trans h.names
  outer := h'.outer.trans h.outer
  children := h'.children.trans h.children
  others a ha ne := by
    obtain ⟨same, around⟩ := h.others a ha ne
    obtain ⟨same', around'⟩ := h'.others a (by rw [h.children]; exact ha) ne
    exact ⟨same.trans hd h.linked same', around'.trans around⟩

/-- What lies below the signature does not lie below a node next to it. -/
theorem not_below (hd : d.Linked) (placed : site.Placed d) {a x : NodeId}
    (ha : a ∈ d.children site.parent) (ne : a ≠ site.signature) (hx : d.Below site.signature x) :
    ¬ d.Below a x := fun below =>
  ne (below.eq_of_siblings hd hx (hd.mem_children_iff.1 ha) (hd.mem_children_iff.1 placed.held))

theorem setAttribute (hd : d.Linked) (placed : site.Placed d) {x : NodeId} {name value : String}
    (hx : x = site.parent ∨ d.Below site.signature x) (h : d.setAttribute x name value = .ok d') :
    site.Spares d d' where
  linked := hd.setAttribute h
  placed := placed.setAttribute h
  elements := Document.isElement_setAttribute h
  names := Document.named_setAttribute h
  outer := Document.children_setAttribute h _
  children := Document.children_setAttribute h _
  others a ha ne := by
    refine ⟨Document.sameBelow_setAttribute h ?_, Document.scopeAround_setAttribute h hd a⟩
    rcases hx with rfl | hx
    · exact fun below => Nat.not_le_of_lt (hd.child_lt ha) (below.le hd)
    · exact not_below hd placed ha ne hx

theorem setText (hd : d.Linked) (placed : site.Placed d) {x : NodeId} {content : String}
    (hx : d.Below site.signature x) (proper : x ≠ site.signature) (ne : x ≠ site.signedInfo)
    (h : d.setText x content = .ok d') : site.Spares d d' := by
  have lt : site.signature < x := Nat.lt_of_le_of_ne (hx.le hd) (Ne.symm proper)
  have parent_lt := hd.child_lt placed.held
  have root_le : Document.root ≤ site.parent := Nat.zero_le _
  refine ⟨hd.setText h, placed.setText hd h lt ne, ?_, Document.named_setText h, ?_, ?_, ?_⟩
  · intro c
    rw [Document.element?_setText h]
  · exact Document.children_setText_of_ne h
      (Nat.ne_of_lt (Nat.lt_of_le_of_lt root_le (Nat.lt_trans parent_lt lt)))
  · exact Document.children_setText_of_ne h (Nat.ne_of_lt (Nat.lt_trans parent_lt lt))
  · intro a ha ne
    exact ⟨Document.sameBelow_setText h (hd.child_lt_size ha) (not_below hd placed ha ne hx),
      Document.scopeAround_setText_of_parent h hd ha (Nat.lt_trans parent_lt lt)⟩

end Site.Spares

/-! ### Signing as a whole -/

theorem signingSite_cases {root : NodeId} (h : signingSite ctx d = .ok (root, site)) :
    ∃ signature, d.rootElement? = some root ∧ d.rootSignature = .ok (some signature) ∧
      Site.locate d signature .root = .ok site := by
  rw [signingSite] at h
  split at h
  · cases h
  split at h
  · cases h
  next r hr =>
    obtain ⟨found, hfound, h⟩ := bind_eq_ok_iff.1 h
    cases found with
    | none => cases h
    | some signature =>
      obtain ⟨site', located, h⟩ := bind_eq_ok_iff.1 h
      obtain ⟨rfl, rfl⟩ : r = root ∧ site' = site := by simpa using h
      exact ⟨signature, hr, hfound, located⟩

theorem stamp_cases {root : NodeId} {id issueInstant : String}
    (h : stamp d root site id issueInstant = .ok d') :
    ∃ d₁ d₂, d.setAttribute root AttributeName.id id = .ok d₁ ∧
      d₁.setAttribute site.reference AttributeName.uri ("#" ++ id) = .ok d₂ ∧
      d₂.setAttribute root AttributeName.issueInstant issueInstant = .ok d' := by
  obtain ⟨d₁, h₁, h⟩ := bind_eq_ok_iff.1 h
  obtain ⟨d₂, h₂, h₃⟩ := bind_eq_ok_iff.1 h
  exact ⟨d₁, d₂, h₁, h₂, h₃⟩

/-- How far signing gets, and what it leaves behind there. -/
inductive Signing.Ends (ctx : Context) (d : Document) (id issueInstant : String) : Signing → Prop
  | noSite {e : Fault} (found : signingSite ctx d = .error e) :
    Ends ctx d id issueInstant ⟨d, .lift (.error e)⟩
  | noStamp {root : NodeId} {site : Site} {e : Fault}
    (found : signingSite ctx d = .ok (root, site))
    (failed : stamp d root site id issueInstant = .error e) :
    Ends ctx d id issueInstant ⟨d, .lift (.error e)⟩
  | noDigest {root : NodeId} {site : Site} {stamped : Document} {e : Fault}
    (found : signingSite ctx d = .ok (root, site))
    (hstamp : stamp d root site id issueInstant = .ok stamped)
    (failed : (site.produceDigest ctx stamped).outcome = .error e) :
    Ends ctx d id issueInstant ⟨stamped, ⟨(site.produceDigest ctx stamped).events, .error e⟩⟩
  | noValue {root : NodeId} {site : Site} {stamped digested : Document} {e : Fault}
    (found : signingSite ctx d = .ok (root, site))
    (hstamp : stamp d root site id issueInstant = .ok stamped)
    (hdigest : (site.produceDigest ctx stamped).outcome = .ok digested)
    (failed : (site.produceValue ctx digested).outcome = .error e) :
    Ends ctx d id issueInstant ⟨digested, ⟨(site.produceDigest ctx stamped).events ++
      (site.produceValue ctx digested).events, .error e⟩⟩
  | signed {root : NodeId} {site : Site} {stamped digested after : Document}
    (found : signingSite ctx d = .ok (root, site))
    (hstamp : stamp d root site id issueInstant = .ok stamped)
    (hdigest : (site.produceDigest ctx stamped).outcome = .ok digested)
    (hvalue : (site.produceValue ctx digested).outcome = .ok after) :
    Ends ctx d id issueInstant ⟨after, ⟨(site.produceDigest ctx stamped).events ++
      (site.produceValue ctx digested).events ++ [.signed id issueInstant], .ok ()⟩⟩

theorem ends_sign (ctx : Context) (d : Document) (id issueInstant : String) :
    Signing.Ends ctx d id issueInstant (sign ctx d id issueInstant) := by
  unfold sign
  split
  · next found => exact .noSite found
  next found =>
  split
  · next failed => exact .noStamp found failed
  next hstamp =>
  dsimp only
  split
  · next failed => exact .noDigest found hstamp failed
  next hdigest =>
  split
  · next failed => exact .noValue found hstamp hdigest failed
  · next hvalue => exact .signed found hstamp hdigest hvalue

/-- What signing goes through: the site, the stamped document, the digest and the value. -/
theorem sign_cases {id issueInstant : String}
    (h : (sign ctx d id issueInstant).trace.outcome = .ok ()) :
    ∃ root site stamped digested, signingSite ctx d = .ok (root, site) ∧
      stamp d root site id issueInstant = .ok stamped ∧
      (site.produceDigest ctx stamped).outcome = .ok digested ∧
      (site.produceValue ctx digested).outcome = .ok (sign ctx d id issueInstant).document := by
  have ends := ends_sign ctx d id issueInstant
  generalize sign ctx d id issueInstant = after at h ends ⊢
  cases ends with
  | signed found hstamp hdigest hvalue => exact ⟨_, _, _, _, found, hstamp, hdigest, hvalue⟩
  | _ => cases h

/-- What setting attributes and texts keeps is kept by signing, also if signing fails on the way. -/
theorem sign_keeps {Q : Document → Prop}
    (set : ∀ {d d' : Document} {x : NodeId} {name value : String}, Q d →
      d.setAttribute x name value = .ok d' → Q d')
    (text : ∀ {d d' : Document} {x : NodeId} {content : String}, Q d →
      d.setText x content = .ok d' → Q d')
    {d : Document} (start : Q d) (ctx : Context) (id issueInstant : String) :
    Q (sign ctx d id issueInstant).document := by
  have stamping {root : NodeId} {site : Site} {stamped : Document}
      (h : stamp d root site id issueInstant = .ok stamped) : Q stamped := by
    obtain ⟨d₁, d₂, h₁, h₂, h₃⟩ := stamp_cases h
    exact set (set (set start h₁) h₂) h₃
  have digesting {site : Site} {stamped digested : Document} (here : Q stamped)
      (h : (site.produceDigest ctx stamped).outcome = .ok digested) : Q digested := by
    obtain ⟨digest, value, -, -, filled⟩ := Site.produceDigest_eq_ok_iff.1 h
    exact text here filled
  have ends := ends_sign ctx d id issueInstant
  generalize sign ctx d id issueInstant = after at ends ⊢
  cases ends with
  | noSite => exact start
  | noStamp => exact start
  | noDigest _ hstamp => exact stamping hstamp
  | noValue _ hstamp hdigest => exact digesting (stamping hstamp) hdigest
  | signed _ hstamp hdigest hvalue =>
    obtain ⟨method, form, value, -, -, filled⟩ := Site.produceValue_eq_ok_iff.1 hvalue
    exact text (digesting (stamping hstamp) hdigest) filled

/-- The document element, its signature and the parts of it that signing works on. -/
theorem placed_of_signingSite (hd : d.Linked) {root : NodeId}
    (h : signingSite ctx d = .ok (root, site)) : site.Placed d ∧ root = site.parent ∧
      d.FirstChild Document.root (fun c => ∃ e, d.element? c = some e) site.parent ∧
      d.FirstChild site.parent (d.Named Namespace.dsig ElementName.signature) site.signature := by
  obtain ⟨signature, element, found, located⟩ := signingSite_cases h
  have element := Document.rootElement?_eq_some_iff.1 element
  obtain ⟨root', element', signed⟩ := rootSignature_eq_some_iff.1 found
  obtain rfl := element.unique element'
  obtain ⟨e, he⟩ := element.mem.2
  obtain ⟨placed, rfl, rfl⟩ := Site.Placed.of_locate hd he signed.mem.1 located
  exact ⟨placed, rfl, element, signed⟩

theorem Site.Spares.stamp (hd : d.Linked) (placed : site.Placed d) {id issueInstant : String}
    (h : stamp d site.parent site id issueInstant = .ok d') : site.Spares d d' := by
  obtain ⟨d₁, d₂, h₁, h₂, h₃⟩ := stamp_cases h
  have first := setAttribute hd placed (.inl rfl) h₁
  have second := setAttribute first.linked first.placed
    (.inr (first.placed.below_reference first.linked)) h₂
  have third := setAttribute second.linked second.placed (.inl rfl) h₃
  exact (first.trans hd second).trans hd third

theorem Site.Spares.produceDigest (hd : d.Linked) (placed : site.Placed d)
    (h : (site.produceDigest ctx d).outcome = .ok d') : site.Spares d d' := by
  obtain ⟨digest, value, -, first, set⟩ := produceDigest_eq_ok_iff.1 h
  have below := placed.below_digestValue hd first
  -- the signature is above its signed information, which is above the reference
  have info_lt := hd.child_lt placed.signedInfo.mem.1
  have reference_lt := hd.child_lt placed.reference_mem
  have value_lt := hd.child_lt first.mem.1
  exact setText hd placed below
    (Nat.ne_of_gt (Nat.lt_trans info_lt (Nat.lt_trans reference_lt value_lt)))
    (Nat.ne_of_gt (Nat.lt_trans reference_lt value_lt)) set

theorem Site.Spares.produceValue (hd : d.Linked) (placed : site.Placed d)
    (h : (site.produceValue ctx d).outcome = .ok d') : site.Spares d d' := by
  obtain ⟨method, form, value, -, -, set⟩ := produceValue_eq_ok_iff.1 h
  exact setText hd placed (placed.below_signatureValue hd)
    (Nat.ne_of_gt (hd.child_lt placed.signatureValue.mem.1))
    (placed.signatureValue.mem.2.ne placed.signedInfo.mem.2 (by decide)) set

/-- The signature of the assertion conforms if its digest and value are accepted, unless there is
none. -/
theorem assertion_conforms (hd : d.Linked)
    (asserted : d.assertionSignature? = none ∨ ∃ signature assertionSite,
      d.assertionSignature? = some signature ∧
      Site.locate d signature .assertion = .ok assertionSite ∧
      (assertionSite.verifyDigest ctx d).outcome = .ok true ∧
      (assertionSite.verifyValue ctx d).outcome = .ok true)
    {root a s : NodeId}
    (element : d.FirstChild Document.root (fun c => ∃ e, d.element? c = some e) root)
    (ha : d.FirstChild root (d.Named Namespace.samlAssertion ElementName.assertion) a)
    (hs : d.FirstChild a (d.Named Namespace.dsig ElementName.signature) s) :
    SignatureConforms ctx.key d a s := by
  have found := assertionSignature?_eq_some_iff.2 ⟨root, a, element, ha, hs⟩
  obtain ⟨e, he⟩ := ha.mem.2.element
  rcases asserted with none | ⟨signature, assertionSite, found', located, digest, value⟩
  · rw [none] at found
    cases found
  · obtain rfl := Option.some.inj (found.symm.trans found')
    exact (verifySite_iff_conforms hd he hs.mem.1).1
      (verifySite_eq_true_iff.2 ⟨assertionSite, located, digest, value⟩)

/-- **Signing is complete.**  Let signing a document go through, and let the signature of its
assertion be right if there is one.  Then the signed document is accepted by every key with the same
public half, whatever is reported on the way. -/
theorem verify_sign (hd : d.Reachable) {id issueInstant : String}
    (signed : (sign ctx d id issueInstant).trace.outcome = .ok ())
    (same : ctx'.key.toPublic = ctx.key.toPublic)
    (asserted : d.assertionSignature? = none ∨ ∃ signature assertionSite,
      d.assertionSignature? = some signature ∧
      Site.locate d signature .assertion = .ok assertionSite ∧
      (assertionSite.verifyDigest ctx' d).outcome = .ok true ∧
      (assertionSite.verifyValue ctx' d).outcome = .ok true) :
    (verify ctx' (sign ctx d id issueInstant).document).outcome = .ok true := by
  have linked := hd.linked
  obtain ⟨root, site, stamped, digested, found, hstamp, hdigest, hvalue⟩ := sign_cases signed
  obtain ⟨placed, rfl, element, signature⟩ := placed_of_signingSite linked found
  -- every step keeps the site and what is next to it
  have step₁ := Site.Spares.stamp linked placed hstamp
  have step₂ := Site.Spares.produceDigest step₁.linked step₁.placed hdigest
  have step₃ := Site.Spares.produceValue step₂.linked step₂.placed hvalue
  have steps := (step₁.trans linked step₂).trans linked step₃
  -- the digest is right once it is put in, and stays so when the value is
  have digest₂ : (site.verifyDigest ctx' digested).outcome = .ok true :=
    Site.verifyDigest_of_produceDigest step₁.linked step₁.placed hdigest
  obtain ⟨_, _, _, -, -, set⟩ := Site.produceValue_eq_ok_iff.1 hvalue
  have digest : (site.verifyDigest ctx' (sign ctx d id issueInstant).document).outcome = .ok true :=
    Site.verifyDigest_setText step₂.linked step₂.placed set digest₂
  have value := Site.verifyValue_of_produceValue step₂.linked step₂.placed same hvalue
  have firstNamed {p c : NodeId} {uri name : String}
      (children : (sign ctx d id issueInstant).document.children p = d.children p) :
      (sign ctx d id issueInstant).document.FirstChild p
        ((sign ctx d id issueInstant).document.Named uri name) c ↔
      d.FirstChild p (d.Named uri name) c := by
    rw [Document.FirstChild, Document.FirstChild, children, steps.names]
  refine (verify_iff_conforms steps.linked).2 (.intro ?_ ((firstNamed steps.children).2 signature)
    ?_ ?_)
  · simpa only [Document.FirstChild, steps.outer, steps.elements] using element
  · -- the assertion stands next to the signature, so its own signature is what it was
    intro a s ha hs
    rw [firstNamed steps.children] at ha
    have ne : a ≠ site.signature := ha.mem.2.ne signature.mem.2 (by decide)
    obtain ⟨below, around⟩ := steps.others a ha.mem.1 ne
    rw [firstNamed (below.children a .refl)] at hs
    obtain ⟨e, he⟩ := ha.mem.2.element
    exact (assertion_conforms linked asserted element ha hs).congr linked steps.linked below around
      he hs.mem.1
  · exact .intro steps.placed.signedInfo steps.placed.only steps.placed.signatureValue
      ((Site.verifyDigest_iff_conforms steps.linked).1 digest)
      (Site.verifyValue_iff_conforms.1 value)

/-- `sealed` with another identifier and time of issue. -/
def stamped : Document :=
  message [("ID", "j"), ("IssueInstant", "u")] "#j" "5rdBRe7hp42XM+fYQlHBeOL9K04="
    "GQL68VkXOLTAwVC8TagybnFfgfB+Tg+gsENOpThvgohYyGHUkLi94uYPnX9kwQ=="

/-- `stamped` with the digest of its canonical form. -/
def digested : Document :=
  (stamped.detachChildren 11).appendChild 11 (.text "VmM+CV2+4vEm0wQirWg1OJravC4=")

theorem produceDigest_stamped (ctx : Context) :
    (sealedSite.produceDigest ctx stamped).outcome = .ok digested := by
  have form : stamped.canonical 1 (some 2) false [] =
      .ok (String.ofList "<r ID=\"j\" IssueInstant=\"u\"></r>".toList) :=
    Document.canonical_eq_ok rfl (by decide +kernel)
  have digest : Base64.encode (DigestMethod.sha1.hash (utf8 (String.ofList
      "<r ID=\"j\" IssueInstant=\"u\"></r>".toList))) = "VmM+CV2+4vEm0wQirWg1OJravC4=".toList := by
    rw [utf8_ofList]
    decide +kernel
  have computed : (sealedSite.computeDigest ctx stamped).outcome =
      .ok "VmM+CV2+4vEm0wQirWg1OJravC4=" :=
    Site.computeDigest_eq_ok_iff.2 ⟨rfl, ⟨.exclusive, none⟩, rfl, .sha1, rfl, _, form,
      by rw [digest, String.ofList_toList]⟩
  refine Site.produceDigest_eq_ok_iff.2 ⟨_, 11, computed, ?_, rfl⟩
  exact Document.requiredChild_eq_ok_iff.1 rfl

theorem produceValue_digested (debug : Bool) :
    ∃ d, (sealedSite.produceValue ⟨.privateKey sealingKey, debug⟩ digested).outcome = .ok d := by
  have form : signedInfoForm digested 3 =
      .ok (String.ofList (Canonical.write (digested.rendered 3 none false []))) :=
    signedInfoForm_eq_ok_iff.2 ⟨.exclusive, rfl, Document.canonical_eq_ok rfl rfl⟩
  have goes : (Key.sign (.privateKey sealingKey) .rsaSha1
      (utf8 (String.ofList (Canonical.write (digested.rendered 3 none false []))))).isOk := by
    rw [utf8_ofList]
    decide +kernel
  cases signed : Key.sign (.privateKey sealingKey) .rsaSha1
      (utf8 (String.ofList (Canonical.write (digested.rendered 3 none false [])))) with
  | error e =>
    rw [signed] at goes
    cases goes
  | ok value =>
    exact ⟨_, Site.produceValue_eq_ok_iff.2
      ⟨.rsaSha1, _, value, Site.signedInput_eq_ok_iff.2 ⟨rfl, form⟩, signed, rfl⟩⟩

/-- A sealed message can be sealed once more. -/
theorem sign_sealed (debug : Bool) :
    (sign ⟨.privateKey sealingKey, debug⟩ sealed "j" "u").trace.outcome = .ok () := by
  have found : signingSite ⟨.privateKey sealingKey, debug⟩ sealed = .ok (1, sealedSite) := rfl
  have hstamp : stamp sealed 1 sealedSite "j" "u" = .ok stamped := rfl
  have hdigest := produceDigest_stamped ⟨.privateKey sealingKey, debug⟩
  obtain ⟨d, hvalue⟩ := produceValue_digested debug
  simp only [sign, found, hstamp, hdigest, hvalue]

theorem verify_sign_sealed : (verify ⟨.publicKey sealingKey.publicKey, false⟩
    (sign ⟨.privateKey sealingKey, true⟩ sealed "j" "u").document).outcome = .ok true :=
  verify_sign (.parse parse_sealed) (sign_sealed true) rfl (.inl rfl)

end SamlSeal
