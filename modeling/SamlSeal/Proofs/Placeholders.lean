import SamlSeal.Proofs.OpenPlaces
import SamlSeal.Proofs.Sealing
import SamlSeal.Proofs.Trust

/-!
# Placeholders

A template has places that signing fills: three attributes and the contents of two elements.  What a
template holds there does not matter, as each place is filled before anything is read that it is a
part of.

* `Document.SameTemplate`: two documents are the same but for the places that signing fills,
* `Site.Twins`: the sites of such documents, at any stage of signing.  The digest is the same as
  soon as the attributes are set, and the value as soon as the digest is put in,
* `sign_eq_of_sameTemplate`: so both are signed alike, and a message that was signed before is
  signed as it was the first time.
-/

namespace SamlSeal.Xml.Document

variable {d d' : Document} {x y : NodeId}

/-! ### Templates -/

/-- The reference of the message: the first one in the signed information of its signature. -/
def RootReference (d : Document) (f : NodeId) : Prop :=
  ∃ s i, d.rootSignature = .ok (some s) ∧
    d.childElement? s Namespace.dsig ElementName.signedInfo = some i ∧
    d.childElement? i Namespace.dsig ElementName.reference = some f

/-- The attributes that signing sets: the identifier and the time of issue of the document element,
and what the reference points to. -/
inductive Field (d : Document) : NodeId → String → Prop
  | id {r : NodeId} (hr : d.rootElement? = some r) : Field d r AttributeName.id
  | issueInstant {r : NodeId} (hr : d.rootElement? = some r) : Field d r AttributeName.issueInstant
  | uri {f : NodeId} (hf : d.RootReference f) : Field d f AttributeName.uri

/-- The elements whose content signing replaces: the first digest value of the reference, and the
first signature value. -/
inductive Slot (d : Document) : NodeId → Prop
  | digest {f v : NodeId} (hf : d.RootReference f)
    (hv : d.childElement? f Namespace.dsig ElementName.digestValue = some v) : Slot d v
  | value {s v : NodeId} (hs : d.rootSignature = .ok (some s))
    (hv : d.childElement? s Namespace.dsig ElementName.signatureValue = some v) : Slot d v

/-- Two documents are the same tree, except for what signing replaces. -/
def SameTemplate (d d' : Document) : Prop := ∃ R, d.SameBut d' R d.Field d.Slot

theorem rootSignature_cases {s : NodeId} (h : d.rootSignature = .ok (some s)) :
    ∃ r, d.rootElement? = some r ∧
      d.childElement? r Namespace.dsig ElementName.signature = some s := by
  rw [rootSignature] at h
  split at h
  · next r hr => exact ⟨r, hr, Except.ok.inj h⟩
  · cases h

/-- What signing fills lies behind the signature. -/
theorem Slot.signature_lt (linked : d.Linked) {v : NodeId} (h : d.Slot v) :
    ∃ s : Nat, d.rootSignature = .ok (some s) ∧ s < v := by
  cases h with
  | digest hf hv =>
    obtain ⟨s, i, hs, hi, hf⟩ := hf
    have info_lt := linked.child_lt (List.mem_of_find?_eq_some hi)
    have reference_lt := linked.child_lt (List.mem_of_find?_eq_some hf)
    have value_lt := linked.child_lt (List.mem_of_find?_eq_some hv)
    exact ⟨s, hs, by omega⟩
  | @value s _ hs hv => exact ⟨s, hs, linked.child_lt (List.mem_of_find?_eq_some hv)⟩

/-- Nothing of another name is filled. -/
theorem Slot.ne (h : d.Slot x) {uri name : String} (named : d.isNamed uri name y = true)
    (digest : name ≠ ElementName.digestValue) (value : name ≠ ElementName.signatureValue) :
    x ≠ y := by
  rintro rfl
  cases h with
  | digest _ hv =>
    exact Bool.false_ne_true ((isNamed_eq_false digest (List.find?_some hv)).symm.trans named)
  | value _ hv =>
    exact Bool.false_ne_true ((isNamed_eq_false value (List.find?_some hv)).symm.trans named)

end SamlSeal.Xml.Document

namespace SamlSeal

open Xml

variable {ctx : Context} {d d' : Document} {R : NodeId → NodeId → Prop}

/-! ### Finding the site -/

namespace Xml.Document.SameBut

variable {fields : NodeId → String → Prop} (h : d.SameBut d' R fields d.Slot)
  (linked : d.Linked) (linked' : d'.Linked)

include h linked linked'

/-- The signatures of two templates have the same parts. -/
theorem locate_agree {r r' s s' : NodeId} (hrr : R r r') (hss : R s s')
    (hr : d.rootElement? = some r)
    (hs : d.childElement? r Namespace.dsig ElementName.signature = some s)
    (hs' : s' ∈ d'.children r') :
    Agree (Site.Mirrors R) (Site.locate d s .root) (Site.locate d' s' .root) := by
  have signature : d.rootSignature = .ok (some s) := by
    rw [Document.rootSignature, hr]
    exact congrArg Except.ok hs
  have outside : ¬ d.Slot s := fun slot => by
    obtain ⟨s₁, hs₁, lt⟩ := slot.signature_lt linked
    rw [signature] at hs₁
    obtain rfl := Option.some.inj (Except.ok.inj hs₁)
    exact Nat.lt_irrefl _ lt
  have holder : Agree R (Site.holder d s) (Site.holder d' s') := by
    have element := List.find?_some hr
    rw [Site.holder, Site.holder, linked.mem_children_iff.1 (List.mem_of_find?_eq_some hs),
      linked'.mem_children_iff.1 hs']
    dsimp only
    rw [if_pos element, if_pos ((h.isElement_eq hrr).trans element)]
    exact .ok hrr
  have info : Agree (fun i i' => R i i' ∧ ¬ d.Slot i)
      (d.requiredChild s ElementName.signedInfo) (d'.requiredChild s' ElementName.signedInfo) := by
    refine requiredChild_agree ?_
    rcases rel_cases (h.childElement? hss outside Namespace.dsig ElementName.signedInfo) with
      ⟨none, none'⟩ | ⟨i, i', hi, hi', hii⟩
    · rw [none, none']
      exact .none
    · rw [hi, hi']
      exact .some ⟨hii, fun slot => slot.ne (List.find?_some hi) (by decide) (by decide) rfl⟩
  exact Site.locate_agree holder info
    (fun hi => onlyReference_agree (h.childElements hi.1 hi.2 _ _))
    (requiredChild_agree (h.childElement? hss outside _ _))
    fun hp hi hr hv => ⟨rfl, hss, hp, hi.1, hr, hv⟩

/-- The sites of two templates correspond. -/
theorem signingSite_agree (ctx : Context) :
    Agree (fun a b => Site.Mirrors R a.2 b.2) (signingSite ctx d) (signingSite ctx d') := by
  rw [signingSite, signingSite]
  split
  · exact .error _
  have outside : ¬ d.Slot root := fun slot => by
    obtain ⟨s, -, lt⟩ := slot.signature_lt linked
    exact Nat.not_lt_zero _ lt
  have element : Option.Rel R d.rootElement? d'.rootElement? :=
    rel_find? (h.children h.top outside) h.isElement_eq
  rcases rel_cases element with ⟨none, none'⟩ | ⟨r, r', hr, hr', hrr⟩
  · rw [none, none']
    exact .error _
  have above : ¬ d.Slot r := fun slot => by
    obtain ⟨s, hs, lt⟩ := slot.signature_lt linked
    obtain ⟨r₁, hr₁, hs⟩ := rootSignature_cases hs
    obtain rfl := Option.some.inj (hr.symm.trans hr₁)
    exact Nat.lt_asymm lt (linked.child_lt (List.mem_of_find?_eq_some hs))
  rw [rootSignature, rootSignature, hr, hr']
  rcases rel_cases (h.childElement? hrr above Namespace.dsig ElementName.signature) with
    ⟨none, none'⟩ | ⟨s, s', hs, hs', hss⟩
  · simp only [none, none']
    exact .error _
  · simp only [hs, hs']
    exact (h.locate_agree linked linked' hrr hss hr hs (List.mem_of_find?_eq_some hs')).bind
      fun hsite => .ok hsite

end Xml.Document.SameBut

/-! ### What is read of a site -/

/-- The two elements of a site whose content is replaced. -/
def Site.Slot (site : Site) (d : Document) (x : NodeId) : Prop :=
  x = site.signatureValue ∨
    d.childElement? site.reference Namespace.dsig ElementName.digestValue = some x

/-- Sites in the document elements of two documents correspond. -/
structure Site.Twins (d d' : Document) (R : NodeId → NodeId → Prop) (site site' : Site) : Prop where
  linked : d.Linked
  linked' : d'.Linked
  placed : site.Placed d
  placed' : site'.Placed d'
  top : site.parent ∈ d.children Document.root
  top' : site'.parent ∈ d'.children Document.root
  mirrors : Site.Mirrors R site site'

variable {site site' : Site}

theorem Site.Slot.below (linked : d.Linked) (placed : site.Placed d) {x : NodeId}
    (slot : site.Slot d x) : d.Below site.signature x := by
  rcases slot with rfl | hx
  · exact placed.below_signatureValue linked
  · exact (placed.below_reference linked).child linked (List.mem_of_find?_eq_some hx)

theorem Site.Placed.not_slot_reference (linked : d.Linked) (placed : site.Placed d) :
    ¬ site.Slot d site.reference := by
  rintro (eq | hv)
  · exact placed.reference_named.ne placed.signatureValue.mem.2 (by decide) eq
  · exact Nat.lt_irrefl _ (linked.child_lt (List.mem_of_find?_eq_some hv))

namespace Site.Twins

variable (twins : Site.Twins d d' R site site') {slots : NodeId → Prop}

include twins

/-- Twins stay twins when both documents are changed inside their signatures. -/
theorem step {d₁ d₁' : Document} {S : NodeId → NodeId → Prop} (spares : site.Spares d d₁)
    (spares' : site'.Spares d' d₁') (more : ∀ {x y}, R x y → S x y) :
    Site.Twins d₁ d₁' S site site' where
  linked := spares.linked
  linked' := spares'.linked
  placed := spares.placed
  placed' := spares'.placed
  top := spares.outer ▸ twins.top
  top' := spares'.outer ▸ twins.top'
  mirrors := ⟨twins.mirrors.kind, more twins.mirrors.signature, more twins.mirrors.parent,
    more twins.mirrors.signedInfo, more twins.mirrors.reference, more twins.mirrors.signatureValue⟩

theorem scopeAt_parent (h : d.SameBut d' R (fun _ _ => False) slots) :
    d'.scopeAt site'.parent = d.scopeAt site.parent :=
  h.scopeAt_eq twins.linked twins.linked' twins.mirrors.parent twins.top twins.top'
    (h.scopeAt_root twins.linked twins.linked')

theorem scopeAt_signedInfo (h : d.SameBut d' R (fun _ _ => False) slots) :
    d'.scopeAt site'.signedInfo = d.scopeAt site.signedInfo := by
  have signature := h.scopeAt_eq twins.linked twins.linked' twins.mirrors.signature
    twins.placed.held twins.placed'.held (twins.scopeAt_parent h)
  exact h.scopeAt_eq twins.linked twins.linked' twins.mirrors.signedInfo
    twins.placed.signedInfo.mem.1 twins.placed'.signedInfo.mem.1 signature

section Digest

variable (h : d.SameBut d' R (fun _ _ => False) (site.Slot d))

include h

/-- The signed element is written without the signature, and so without the slots. -/
theorem signedForm_eq (t : Reference.Transforms) :
    site'.signedForm d' t = site.signedForm d t := by
  have scope := twins.scopeAt_parent h
  obtain ⟨linked, linked', placed, placed', -, -, mirrors⟩ := twins
  obtain ⟨e, he⟩ := placed.element
  have he' : d'.element? site'.parent = some e := (h.element?_eq mirrors.parent).trans he
  have outside : ¬ site.Slot d site.parent := fun slot =>
    Nat.not_le_of_lt (linked.child_lt placed.held) ((slot.below linked placed).le linked)
  have others : List.Forall₂ R
      (Document.without (some site.signature) (d.children site.parent))
      (Document.without (some site'.signature) (d'.children site'.parent)) := by
    refine Document.forall₂_filter (h.children mirrors.parent outside) fun hxy => ?_
    simp only [ne_eq, Option.some.injEq, h.inj mirrors.signature hxy]
  refine Document.canonical_eq_of_sameTrees_without linked linked' he he' rfl rfl
    (fun p => by rw [scope]) placed.held placed'.held (h.sameTrees linked others ?_) _ _
  intro a ha z below slot
  obtain ⟨mem, ne⟩ := Document.mem_without.1 ha
  exact Site.Spares.not_below linked placed mem (fun eq => ne (congrArg some eq.symm))
    (slot.below linked placed) below

/-- What a reference holds next to its digest value is the same. -/
theorem referenceChild {name : String} (ne : name ≠ ElementName.digestValue) :
    Option.Rel (d.SameTree d') (d.childElement? site.reference Namespace.dsig name)
      (d'.childElement? site'.reference Namespace.dsig name) := by
  obtain ⟨linked, -, placed, -, -, -, mirrors⟩ := twins
  rcases Document.rel_cases (h.childElement? mirrors.reference (placed.not_slot_reference linked)
    Namespace.dsig name) with ⟨none, none'⟩ | ⟨c, c', hc, hc', hcc⟩
  · rw [none, none']
    exact .none
  rw [hc, hc']
  refine .some (h.sameTree linked hcc fun z below slot => ?_)
  have up := linked.mem_children_iff.1 (List.mem_of_find?_eq_some hc)
  rcases slot with rfl | hz
  · -- the signature value stands higher up
    have info_lt := linked.child_lt placed.signedInfo.mem.1
    have reference_lt := linked.child_lt placed.reference_mem
    have child_lt := linked.parent_lt up
    rcases below.cases_child linked placed.signatureValue.mem.1 with eq | above
    · rw [← eq, linked.mem_children_iff.1 placed.signatureValue.mem.1] at up
      exact absurd (Option.some.inj up) (Nat.ne_of_lt (by omega))
    · have le := above.le linked
      omega
  · have up' := linked.mem_children_iff.1 (List.mem_of_find?_eq_some hz)
    obtain rfl := below.eq_of_same_parent linked up up'
    exact Bool.false_ne_true
      ((Document.isNamed_eq_false ne (List.find?_some hz)).symm.trans (List.find?_some hc))

theorem computeDigest_eq (ctx : Context) :
    site'.computeDigest ctx d' = site.computeDigest ctx d := by
  have linkage : Reference.checkLinkage d' site' = Reference.checkLinkage d site := by
    rw [Reference.checkLinkage, Reference.checkLinkage, h.attribute?_eq twins.mirrors.reference,
      h.attribute?_eq twins.mirrors.parent]
  have transforms := Document.mirrorsBelow_sameTree.transforms_congr
    (twins.referenceChild h (by decide))
  have method := Document.mirrorsBelow_sameTree.algorithmOf_congr
    (twins.referenceChild h (show ElementName.digestMethod ≠ ElementName.digestValue by decide))
  simp only [Site.computeDigest, linkage, transforms, method, twins.signedForm_eq h,
    twins.mirrors.kind]

end Digest

/-- The signed information does not hold the signature value. -/
theorem signedInput_eq (h : d.SameBut d' R (fun _ _ => False) (· = site.signatureValue))
    (ctx : Context) : site'.signedInput ctx d' = site.signedInput ctx d := by
  have scope := twins.scopeAt_signedInfo h
  obtain ⟨linked, linked', placed, -, -, -, mirrors⟩ := twins
  obtain ⟨e, he⟩ := placed.signedInfo.mem.2.element
  have same : d.SameTree d' site.signedInfo site'.signedInfo := by
    refine h.sameTree linked mirrors.signedInfo ?_
    rintro _ below rfl
    have eq := below.eq_of_same_parent linked (linked.mem_children_iff.1 placed.signedInfo.mem.1)
      (linked.mem_children_iff.1 placed.signatureValue.mem.1)
    exact placed.signedInfo.mem.2.ne placed.signatureValue.mem.2 (by decide) eq
  obtain ⟨-, -, -, below⟩ := Document.sameTree_iff.1 same
  have algorithm (name : String) := Document.mirrorsBelow_sameTree.algorithmOf_eq same name
  have form : signedInfoForm d' site'.signedInfo = signedInfoForm d site.signedInfo := by
    simp only [signedInfoForm, algorithm, Document.canonical_eq_of_sameTrees linked linked' he
      (same.element he) rfl rfl (fun p => by rw [scope]) below]
  simp only [Site.signedInput, algorithm, form, mirrors.kind]

/-! ### What is put in -/

/-- The same digest is put in, which closes one of the slots. -/
theorem produceDigest (h : d.SameBut d' R (fun _ _ => False) (site.Slot d)) (ctx : Context) :
    Traced.Agree (fun d₁ d₁' => ∃ S : NodeId → NodeId → Prop, (∀ {x y}, R x y → S x y) ∧
        d₁.SameBut d₁' S (fun _ _ => False) (· = site.signatureValue))
      (site.produceDigest ctx d) (site'.produceDigest ctx d') := by
  rw [Site.produceDigest, Site.produceDigest, twins.computeDigest_eq h]
  obtain ⟨linked, linked', placed, -, -, -, mirrors⟩ := twins
  refine (Traced.Agree.refl _).bind ?_
  rintro digest _ computed rfl
  have found := requiredChild_agree (h.childElement? mirrors.reference
    (placed.not_slot_reference linked) Namespace.dsig ElementName.digestValue)
  refine (Traced.Agree.lift found).bind fun {v v'} hv hvv => ?_
  have first := Document.requiredChild_eq_ok_iff.1 hv
  rw [mirrors.kind]
  refine (Traced.Agree.refl _).bind fun _ _ => .lift ?_
  refine (h.setText_agree linked linked' hvv first.mem.2.element
    (Site.computeDigest_ne_empty computed)).imp ?_
  rintro d₁ d₁' ⟨S, more, closed⟩
  refine ⟨S, more, closed.mono (fun _ _ => id) ?_⟩
  rintro z ⟨rfl | hz, ne⟩
  · rfl
  · rw [Document.childElement?_eq_some_iff (by decide)] at hz
    exact absurd (hz.unique first) ne

/-- The same value is put in, which closes the other slot. -/
theorem produceValue (h : d.SameBut d' R (fun _ _ => False) (· = site.signatureValue))
    (ctx : Context) :
    Traced.Agree (fun d₁ d₁' => ∃ S : NodeId → NodeId → Prop,
        d₁.SameBut d₁' S (fun _ _ => False) fun _ => False)
      (site.produceValue ctx d) (site'.produceValue ctx d') := by
  rw [Site.produceValue, Site.produceValue, twins.signedInput_eq h]
  obtain ⟨linked, linked', placed, -, -, -, mirrors⟩ := twins
  refine (Traced.Agree.refl _).bind ?_
  rintro ⟨method, form⟩ _ - rfl
  refine (Traced.Agree.refl _).bind ?_
  rintro value _ signed rfl
  have nonempty := ofList_encode_ne_empty (Key.ne_nil_of_sign signed)
  refine .lift ((h.setText_agree linked linked' mirrors.signatureValue
    placed.signatureValue.mem.2.element nonempty).imp ?_)
  rintro d₁ d₁' ⟨S, -, closed⟩
  exact ⟨S, closed.mono (fun _ _ => id) fun z hz => hz.2 hz.1⟩

end Site.Twins

/-! ### Signing -/

section Stamped

variable {stamped stamped' : Document} {id issueInstant : String} (linked : d.Linked)
  (linked' : d'.Linked) (found : signingSite ctx d = .ok (site.parent, site))
  (found' : signingSite ctx d' = .ok (site'.parent, site'))
  (hstamp : stamp d site.parent site id issueInstant = .ok stamped)
  (hstamp' : stamp d' site'.parent site' id issueInstant = .ok stamped')
  (mirrors : Site.Mirrors R site site')

include hstamp hstamp' mirrors

include linked found in
/-- Stamping two templates closes their attributes. -/
theorem Xml.Document.SameBut.of_stamp (h : d.SameBut d' R d.Field d.Slot) :
    stamped.SameBut stamped' R (fun _ _ => False) (site.Slot stamped) := by
  obtain ⟨placed, -, element, signature⟩ := placed_of_signingSite linked found
  obtain ⟨d₁, d₂, h₁, h₂, h₃⟩ := stamp_cases hstamp
  obtain ⟨d₁', d₂', h₁', h₂', h₃'⟩ := stamp_cases hstamp'
  have dsig : Namespace.dsig ≠ "" := by decide
  have at_signature {s : NodeId} (hs : d.rootSignature = .ok (some s)) : s = site.signature := by
    obtain ⟨r, hr, hs⟩ := rootSignature_eq_some_iff.1 hs
    obtain rfl := hr.unique element
    exact hs.unique signature
  have at_reference {f : NodeId} (hf : d.RootReference f) : f = site.reference := by
    obtain ⟨s, i, hs, hi, hf⟩ := hf
    obtain rfl := at_signature hs
    obtain rfl := ((childElement?_eq_some_iff dsig).1 hi).unique placed.signedInfo
    have first := (childElement?_eq_some_iff dsig).1 hf
    exact List.mem_singleton.1 ((placed.only.2 f first.mem.1).2 first.mem.2)
  have set := ((h.setAttribute mirrors.parent h₁ h₁').setAttribute mirrors.reference h₂
    h₂').setAttribute mirrors.parent h₃ h₃'
  refine set.mono ?_ ?_
  · rintro x n ⟨⟨⟨field, notId⟩, notUri⟩, notInstant⟩
    cases field with
    | id hr => exact notId ⟨(rootElement?_eq_some_iff.1 hr).unique element, rfl⟩
    | issueInstant hr => exact notInstant ⟨(rootElement?_eq_some_iff.1 hr).unique element, rfl⟩
    | uri hf => exact notUri ⟨at_reference hf, rfl⟩
  · rintro x slot
    cases slot with
    | digest hf hv =>
      obtain rfl := at_reference hf
      exact .inr (((sameLookups_stamp hstamp).first _ _ _).trans hv)
    | value hs hv =>
      obtain rfl := at_signature hs
      exact .inl (((childElement?_eq_some_iff dsig).1 hv).unique placed.signatureValue)

include linked linked' found found' in
theorem Site.Twins.of_stamp : Site.Twins stamped stamped' R site site' := by
  obtain ⟨placed, -, element, -⟩ := placed_of_signingSite linked found
  obtain ⟨placed', -, element', -⟩ := placed_of_signingSite linked' found'
  have start : Site.Twins d d' R site site' :=
    ⟨linked, linked', placed, placed', element.mem.1, element'.mem.1, mirrors⟩
  exact start.step (.stamp linked placed hstamp) (.stamp linked' placed' hstamp') fun hxy => hxy

include linked linked' found found' in
/-- Documents that are the same once they are stamped, but for their slots, are signed alike. -/
theorem sign_eq_of_stamped
    (h : stamped.SameBut stamped' R (fun _ _ => False) (site.Slot stamped)) :
    (sign ctx d' id issueInstant).trace = (sign ctx d id issueInstant).trace ∧
      ((sign ctx d id issueInstant).trace.outcome = .ok () →
        (sign ctx d' id issueInstant).document.toXml =
          (sign ctx d id issueInstant).document.toXml) := by
  have twins := Site.Twins.of_stamp linked linked' found found' hstamp hstamp' mirrors
  obtain ⟨events, outcome⟩ := twins.produceDigest h ctx
  generalize hdigest : (site.produceDigest ctx stamped).outcome = o,
    hdigest' : (site'.produceDigest ctx stamped').outcome = o' at outcome
  cases outcome with
  | error e =>
    simp only [sign, found, found', hstamp, hstamp', hdigest, hdigest', events]
    exact ⟨trivial, fun ok => by cases ok⟩
  | @ok digested digested' closed =>
    obtain ⟨S, more, closed⟩ := closed
    have twins := twins.step (.produceDigest twins.linked twins.placed hdigest)
      (.produceDigest twins.linked' twins.placed' hdigest') more
    obtain ⟨events', outcome⟩ := twins.produceValue closed ctx
    generalize hvalue : (site.produceValue ctx digested).outcome = o,
      hvalue' : (site'.produceValue ctx digested').outcome = o' at outcome
    cases outcome with
    | error e =>
      simp only [sign, found, found', hstamp, hstamp', hdigest, hdigest', hvalue, hvalue', events,
        events']
      exact ⟨trivial, fun ok => by cases ok⟩
    | @ok valued valued' closed =>
      obtain ⟨T, closed⟩ := closed
      simp only [sign, found, found', hstamp, hstamp', hdigest, hdigest', hvalue, hvalue', events,
        events']
      have linked := (Site.Spares.produceValue twins.linked twins.placed hvalue).linked
      have linked' := (Site.Spares.produceValue twins.linked' twins.placed' hvalue').linked
      -- nothing is open any more
      refine ⟨trivial, fun _ => Document.toXml_eq_of_sameTrees linked linked' ?_⟩
      exact closed.sameTrees linked (closed.children closed.top not_false)
        fun _ _ _ _ => not_false

end Stamped

/-- Templates that differ in what signing fills are signed alike. -/
theorem Xml.Document.SameBut.sign_eq (linked : d.Linked) (linked' : d'.Linked)
    (h : d.SameBut d' R d.Field d.Slot) (ctx : Context) (id issueInstant : String) :
    (sign ctx d' id issueInstant).trace = (sign ctx d id issueInstant).trace ∧
      ((sign ctx d id issueInstant).trace.outcome = .ok () →
        (sign ctx d' id issueInstant).document.toXml =
          (sign ctx d id issueInstant).document.toXml) := by
  have sites := h.signingSite_agree linked linked' ctx
  generalize found : signingSite ctx d = o, found' : signingSite ctx d' = o' at sites
  cases sites with
  | error e =>
    simp only [sign, found, found']
    exact ⟨trivial, fun ok => by cases ok⟩
  | @ok pair pair' mirrors =>
    obtain ⟨root, site⟩ := pair
    obtain ⟨root', site'⟩ := pair'
    obtain ⟨placed, rfl, -, -⟩ := placed_of_signingSite linked found
    obtain ⟨placed', rfl, -, -⟩ := placed_of_signingSite linked' found'
    obtain ⟨stamped, hstamp⟩ := placed.stamp_eq_ok id issueInstant
    obtain ⟨stamped', hstamp'⟩ := placed'.stamp_eq_ok id issueInstant
    exact sign_eq_of_stamped linked linked' found found' hstamp hstamp' mirrors
      (h.of_stamp linked found hstamp hstamp' mirrors)

/-! ### Signing again -/

/-- Documents that differ in the contents of some nodes are the same but for these. -/
theorem Xml.Document.Differs.sameBut {slots : NodeId → Prop} (linked : d.Linked)
    (h : d.Differs d' (fun _ => False) slots) :
    d.SameBut d' (fun x y => x = y ∧ x < d.size) (fun _ _ => False) slots where
  top := ⟨rfl, linked.size_pos⟩
  inj := by
    rintro x _ x' _ ⟨rfl, -⟩ ⟨rfl, -⟩
    exact Iff.rfl
  kind := by
    rintro x _ ⟨rfl, lt⟩
    obtain ⟨k, hk⟩ := Document.kind?_of_lt lt
    exact ⟨k, k, hk, (h.kind x lt not_false).trans hk, .same k⟩
  children := by
    rintro x _ ⟨rfl, lt⟩ out
    rw [h.children x lt out]
    exact List.forall₂_same.2 fun c hc => ⟨rfl, linked.child_lt_size hc⟩

/-- What leaves a site where it was leaves it for the next call. -/
theorem Site.Spares.signingSite {site : Site} (linked : d.Linked) (spares : site.Spares d d')
    (found : SamlSeal.signingSite ctx d = .ok (site.parent, site)) :
    SamlSeal.signingSite ctx d' = .ok (site.parent, site) := by
  obtain ⟨key, -, s, -, located⟩ := signingSite_eq_ok_iff.1 found
  obtain ⟨-, -, element, signature⟩ := placed_of_signingSite linked found
  obtain ⟨-, -, kind⟩ := Site.Placed.of_located linked located
  have element' :
      d'.FirstChild Document.root (fun c => ∃ e, d'.element? c = some e) site.parent := by
    simpa only [Document.FirstChild, spares.outer, spares.elements] using element
  refine signingSite_eq_ok_iff.2 ⟨key, Document.rootElement?_eq_some_iff.2 element', site.signature,
    rootSignature_eq_some_iff.2 ⟨site.parent, element', ?_⟩, ?_⟩
  · rw [Document.FirstChild, spares.children, spares.names]
    exact signature
  · rw [← kind]
    exact spares.placed.locate spares.linked

section Again

variable {site : Site} {stamped digested : Document} {id issueInstant : String} {after : Signing}
  (stages : Stages ctx site d stamped digested id issueInstant after)

include stages

/-- After the stamp, only the slots change. -/
theorem Stages.differs_slots : stamped.Differs after.document (fun _ => False)
    (site.Slot stamped) := by
  refine (stages.differs_digested.mono (fun _ => False.elim) ?_).trans
    (stages.differs_after.mono (fun _ => False.elim) fun x hx => .inl hx.2)
  rintro x ⟨-, hx⟩
  exact .inr ((Document.childElement?_eq_some_iff (by decide)).2 (stages.named_digestValue hx))

/-- A second stamp changes nothing. -/
theorem Stages.stamp_after :
    SamlSeal.stamp after.document site.parent site id issueInstant = .ok after.document := by
  have placed := stages.stamped_spares.placed
  obtain ⟨e, he⟩ := placed.element
  obtain ⟨f, hf⟩ := placed.reference_named.element
  have kept {x : NodeId} (lt : x < stamped.size) (name : String) :=
    stages.differs_slots.attribute?_eq lt name
  obtain ⟨identifier, uri, instant⟩ :=
    attribute?_stamp stages.stamp stages.linked stages.placed
  rw [← kept (Document.lt_size_of_element? he)] at identifier instant
  rw [← kept (Document.lt_size_of_element? hf)] at uri
  exact bind_eq_ok_iff.2 ⟨_, Document.setAttribute_eq_self identifier, bind_eq_ok_iff.2
    ⟨_, Document.setAttribute_eq_self uri, Document.setAttribute_eq_self instant⟩⟩

theorem Stages.after_spares (signed : after.trace.outcome = .ok ()) :
    site.Spares d after.document := by
  have spares := stages.digested_spares
  rcases stages.value with ⟨-, -, produced⟩ | ⟨failed, -⟩
  · exact spares.trans stages.linked (.produceValue spares.linked spares.placed produced)
  · exact absurd signed failed

theorem Stages.mirrors : Site.Mirrors (fun x y => x = y ∧ x < stamped.size) site site := by
  have linked := stages.stamped_spares.linked
  have placed := stages.stamped_spares.placed
  obtain ⟨e, he⟩ := placed.element
  exact ⟨rfl, ⟨rfl, linked.child_lt_size placed.held⟩, ⟨rfl, Document.lt_size_of_element? he⟩,
    ⟨rfl, linked.child_lt_size placed.signedInfo.mem.1⟩,
    ⟨rfl, linked.child_lt_size placed.reference_mem⟩,
    ⟨rfl, linked.child_lt_size placed.signatureValue.mem.1⟩⟩

end Again

/-- A message that was signed is signed alike the next time, as only its slots have changed since it
was stamped. -/
theorem sign_sign (linked : d.Linked) {id issueInstant : String}
    (signed : (sign ctx d id issueInstant).trace.outcome = .ok ()) :
    (sign ctx (sign ctx d id issueInstant).document id issueInstant).trace =
        (sign ctx d id issueInstant).trace ∧
      (sign ctx (sign ctx d id issueInstant).document id issueInstant).document.toXml =
        (sign ctx d id issueInstant).document.toXml := by
  obtain ⟨root, site, -, -, found, -⟩ := sign_cases signed
  obtain ⟨rfl, stamped, digested, stages⟩ := stages_sign linked found id issueInstant
  have spares := stages.after_spares signed
  have same := stages.differs_slots.sameBut stages.stamped_spares.linked
  obtain ⟨trace, written⟩ := sign_eq_of_stamped linked spares.linked found
    (spares.signingSite linked found) stages.stamp stages.stamp_after stages.mirrors same
  exact ⟨trace, written signed⟩

/-- What is reported apart, signing depends on the key only. -/
theorem sign_congr_key {ctx' : Context} (key : ctx'.key = ctx.key) (d : Document)
    (id issueInstant : String) :
    (sign ctx' d id issueInstant).document = (sign ctx d id issueInstant).document ∧
      (sign ctx' d id issueInstant).trace.outcome = (sign ctx d id issueInstant).trace.outcome := by
  have site : signingSite ctx' d = signingSite ctx d := by rw [signingSite, key, signingSite]
  have digest (site : Site) (d : Document) :
      (site.produceDigest ctx' d).outcome = (site.produceDigest ctx d).outcome := by
    simp only [Site.produceDigest, Site.computeDigest, Traced.outcome_bind, Traced.outcome_logIf]
  have value (site : Site) (d : Document) :
      (site.produceValue ctx' d).outcome = (site.produceValue ctx d).outcome := by
    simp only [Site.produceValue, Site.signedInput, Traced.outcome_bind, Traced.outcome_logIf, key]
  simp only [sign, site]
  split
  · exact ⟨rfl, rfl⟩
  split
  · exact ⟨rfl, rfl⟩
  simp only [digest]
  split
  · exact ⟨rfl, rfl⟩
  simp only [value]
  split
  · exact ⟨rfl, rfl⟩
  · exact ⟨rfl, rfl⟩

/-- **Placeholders do not matter.**  Let two documents be the same tree except for what signing
replaces: the values of three attributes, and the contents of two elements.  Signed with the same
key, identifier and time of issue, both end in the same fault, or both go through and are written
alike.  So a message that was signed can be signed again without being written in another way. -/
theorem sign_eq_of_sameTemplate (hd : d.Reachable) (hd' : d'.Reachable) (same : d.SameTemplate d')
    {ctx' : Context} (key : ctx'.key = ctx.key) (id issueInstant : String) :
    (sign ctx' d' id issueInstant).trace.outcome = (sign ctx d id issueInstant).trace.outcome ∧
    ((sign ctx d id issueInstant).trace.outcome = .ok () →
      (sign ctx' d' id issueInstant).document.toXml =
        (sign ctx d id issueInstant).document.toXml ∧
      (sign ctx' (sign ctx d id issueInstant).document id issueInstant).trace.outcome = .ok () ∧
      (sign ctx' (sign ctx d id issueInstant).document id issueInstant).document.toXml =
        (sign ctx d id issueInstant).document.toXml) := by
  obtain ⟨R, same⟩ := same
  obtain ⟨trace, written⟩ := same.sign_eq hd.linked hd'.linked ctx id issueInstant
  obtain ⟨document, outcome⟩ := sign_congr_key key d' id issueInstant
  rw [document, outcome, trace]
  refine ⟨rfl, fun signed => ⟨written signed, ?_⟩⟩
  obtain ⟨trace, again⟩ := sign_sign hd.linked signed
  obtain ⟨document, outcome⟩ :=
    sign_congr_key key (sign ctx d id issueInstant).document id issueInstant
  rw [document, outcome, trace]
  exact ⟨signed, again⟩

/-- The message `sealed` before it was sealed, with no values at the places that are filled. -/
def unsealed : Document := .ofForest
  (.node (.element ⟨⟨none, "r", none⟩,
      [⟨⟨none, "ID", none⟩, ""⟩, ⟨⟨none, "IssueInstant", none⟩, ""⟩], [⟨"ds", Namespace.dsig⟩]⟩)
    (signatureTemplate "") .nil)

theorem sameTemplate_unsealed : sealed.SameTemplate unsealed := by
  -- the texts inside the slots of `sealed` take up two numbers
  refine ⟨fun x y => x < 12 ∧ x = y ∨ x = 13 ∧ y = 12, .inl ⟨by decide, rfl⟩, ?_, ?_, ?_⟩
  · rintro x _ x' _ (⟨lt, rfl⟩ | ⟨rfl, rfl⟩) (⟨lt', rfl⟩ | ⟨rfl, rfl⟩)
    · exact Iff.rfl
    · exact iff_of_false (Nat.ne_of_lt (Nat.lt_succ_of_lt lt)) (Nat.ne_of_lt lt)
    · exact iff_of_false (Nat.ne_of_gt (Nat.lt_succ_of_lt lt')) (Nat.ne_of_gt lt')
    · exact iff_of_true rfl rfl
  · have others : ∀ x < 12, x ≠ 1 → x ≠ 6 → unsealed.kind? x = sealed.kind? x := by decide +kernel
    rintro x _ (⟨lt, rfl⟩ | ⟨rfl, rfl⟩)
    · by_cases element : x = 1
      · subst element
        exact ⟨_, _, rfl, rfl, .element rfl rfl (.cons rfl (.inr ⟨_, .id rfl, rfl⟩)
          (.cons rfl (.inr ⟨_, ⟨.issueInstant rfl, rfl⟩, rfl⟩) .nil))⟩
      by_cases reference : x = 6
      · subst reference
        exact ⟨_, _, rfl, rfl, .element rfl rfl
          (.cons rfl (.inr ⟨_, .uri ⟨2, 3, rfl, rfl, rfl⟩, rfl⟩) .nil)⟩
      · obtain ⟨k, hk⟩ := Document.kind?_of_lt (Nat.lt_trans lt (show 12 < sealed.size by decide))
        exact ⟨k, k, hk, (others x lt element reference).trans hk, .same k⟩
    · exact ⟨_, _, rfl, rfl, .same _⟩
  · have others : ∀ x < 12, x ≠ 2 → x ≠ 11 → unsealed.children x = sealed.children x ∧
        ∀ c ∈ sealed.children x, c < 12 := by decide +kernel
    rintro x _ (⟨lt, rfl⟩ | ⟨rfl, rfl⟩) out
    · by_cases signature : x = 2
      · subst signature
        exact .cons (.inl ⟨by decide, rfl⟩) (.cons (.inr ⟨rfl, rfl⟩) .nil)
      · obtain ⟨eq, old⟩ := others x lt signature fun eq =>
          out (eq ▸ .digest ⟨2, 3, rfl, rfl, rfl⟩ rfl)
        rw [eq]
        exact List.forall₂_same.2 fun c hc => .inl ⟨old c hc, rfl⟩
    · exact absurd (.value rfl rfl) out

theorem sign_unsealed :
    Document.parse (String.join ("<r xmlns:ds='http://www.w3.org/2000/09/xmldsig#' ID=''" ::
      " IssueInstant=''>" :: signatureTemplateLines "" ++ ["</r>"])) = .ok unsealed ∧
    sealed.SameTemplate unsealed ∧
    (sign ⟨.privateKey sealingKey, true⟩ unsealed "j" "u").trace.outcome = .ok () ∧
    (sign ⟨.privateKey sealingKey, true⟩ unsealed "j" "u").document.toXml =
      (sign ⟨.privateKey sealingKey, false⟩ sealed "j" "u").document.toXml ∧
    (sign ⟨.privateKey sealingKey, true⟩
        (sign ⟨.privateKey sealingKey, false⟩ sealed "j" "u").document "j" "u").document.toXml =
      (sign ⟨.privateKey sealingKey, false⟩ sealed "j" "u").document.toXml := by
  have read : Document.parse (String.join
      ("<r xmlns:ds='http://www.w3.org/2000/09/xmldsig#' ID=''" ::
        " IssueInstant=''>" :: signatureTemplateLines "" ++ ["</r>"])) = .ok unsealed := by
    refine Document.parse_join ?_
    rw [signatureTemplateLines]
    simp only [List.cons_append, List.nil_append, List.flatMap_cons, List.flatMap_nil]
    repeat rw [String.toList_ofList]
    decide +kernel
  have key : (⟨.privateKey sealingKey, true⟩ : Context).key =
      (⟨.privateKey sealingKey, false⟩ : Context).key := rfl
  obtain ⟨outcome, written⟩ := sign_eq_of_sameTemplate (.parse parse_sealed) (.parse read)
    sameTemplate_unsealed key "j" "u"
  obtain ⟨alike, -, again⟩ := written (sign_sealed false)
  exact ⟨read, sameTemplate_unsealed, outcome.trans (sign_sealed false), alike, again⟩

end SamlSeal
