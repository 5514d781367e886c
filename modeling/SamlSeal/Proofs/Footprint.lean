import SamlSeal.Proofs.Signing

/-!
# What signing leaves behind

Signing makes up to five changes, and may fail before each of them.  The document that is left
behind differs from the template in a few places only, whether signing went through or not.

* `Differs`: two documents differ at most in the kinds and the contents of some nodes,
* `Attribute.Assigned`: an attribute has a new value, or was added,
* `Filled`: the content of a node was replaced by one new text,
* `Site.Digestible`: the conditions under which a digest is put in,
* `Footprint`, `sign_footprint`: all that signing changes, and when it does.
-/

namespace SamlSeal

open Xml

namespace Xml

/-! ### Changed rows -/

/-- The first attribute of the given name and no namespace has a new value.  If there was none, it
stands behind the others. -/
inductive Attribute.Assigned (name value : String) : List Attribute → List Attribute → Prop
  | changed {before after : List Attribute} {a : Attribute}
    (first : ∀ b ∈ before, b.isPlain name = false) (plain : a.isPlain name = true) :
    Assigned name value (before ++ a :: after) (before ++ { a with value } :: after)
  | added {as : List Attribute} (none : ∀ a ∈ as, a.isPlain name = false) :
    Assigned name value as (as ++ [⟨QName.plain name, value⟩])

theorem Attribute.assigned_set (name value : String) (as : List Attribute) :
    Assigned name value as (Attribute.set name value as) := by
  induction as with
  | nil => exact .added nofun
  | cons a as ih =>
    rw [Attribute.set]
    split
    · next plain =>
      show Assigned name value ([] ++ a :: as) ([] ++ _ :: as)
      exact .changed nofun plain
    · next other =>
      have other : a.isPlain name = false := by simpa using other
      generalize Attribute.set name value as = bs at ih
      cases ih with
      | @changed before after b first plain =>
        show Assigned name value ((a :: before) ++ b :: after) ((a :: before) ++ _ :: after)
        exact .changed (List.forall_mem_cons.2 ⟨other, first⟩) plain
      | added none => exact .added (List.forall_mem_cons.2 ⟨other, none⟩)

namespace Document

variable {d d' d'' : Document} {kinds contents : NodeId → Prop}

/-- Two documents differ at most in the kinds of some nodes and in the contents of some nodes.  The
children of the latter may have lost their parent, and there may be new nodes. -/
structure Differs (d d' : Document) (kinds contents : NodeId → Prop) : Prop where
  size : d.size ≤ d'.size
  kind : ∀ x < d.size, ¬ kinds x → d'.kind? x = d.kind? x
  children : ∀ x < d.size, ¬ contents x → d'.children x = d.children x
  parent : ∀ x < d.size, (∀ p, contents p → x ∉ d.children p) → d'.parent? x = d.parent? x
  /-- No node was moved. -/
  unmoved : ∀ p, ∀ x ∈ d'.children p, x < d.size → x ∈ d.children p

namespace Differs

theorem mono {kinds' contents' : NodeId → Prop} (h : d.Differs d' kinds contents)
    (hk : ∀ x, kinds x → kinds' x) (hc : ∀ x, contents x → contents' x) :
    d.Differs d' kinds' contents' where
  size := h.size
  kind x lt out := h.kind x lt fun hx => out (hk x hx)
  children x lt out := h.children x lt fun hx => out (hc x hx)
  parent x lt out := h.parent x lt fun p hp => out p (hc p hp)
  unmoved := h.unmoved

theorem refl (d : Document) : d.Differs d kinds contents :=
  ⟨Nat.le_refl _, fun _ _ _ => rfl, fun _ _ _ => rfl, fun _ _ _ => rfl, fun _ _ mem _ => mem⟩

theorem trans (h : d.Differs d' kinds contents) (h' : d'.Differs d'' kinds contents) :
    d.Differs d'' kinds contents where
  size := Nat.le_trans h.size h'.size
  kind x lt out := (h'.kind x (Nat.lt_of_lt_of_le lt h.size) out).trans (h.kind x lt out)
  children x lt out :=
    (h'.children x (Nat.lt_of_lt_of_le lt h.size) out).trans (h.children x lt out)
  parent x lt out := by
    refine (h'.parent x (Nat.lt_of_lt_of_le lt h.size) fun p hp mem => ?_).trans (h.parent x lt out)
    exact out p hp (h.unmoved p x mem lt)
  unmoved p x mem lt := h.unmoved p x (h'.unmoved p x mem (Nat.lt_of_lt_of_le lt h.size)) lt

theorem setAttribute {x : NodeId} {name value : String}
    (h : d.setAttribute x name value = .ok d') : d.Differs d' (· = x) fun _ => False where
  size := by
    obtain ⟨e, -, rfl⟩ := setAttribute_cases h
    simp [Document.size, replaceElement]
  kind y _ out := kind?_setAttribute h out
  children y _ _ := children_setAttribute h y
  parent y _ _ := parent?_setAttribute h y
  unmoved p y mem _ := by rwa [children_setAttribute h] at mem

theorem setText {x : NodeId} {content : String} (h : d.setText x content = .ok d') :
    d.Differs d' (fun _ => False) (· = x) where
  size := by
    obtain ⟨-, rfl⟩ := setText_cases h
    split <;> simp
  kind y lt _ := kind?_setText h lt
  children y _ out := children_setText_of_ne h out
  parent y lt out := by rw [parent?_setText h lt, if_neg (out x rfl)]
  unmoved p y mem lt := by
    rw [children_setText h] at mem
    split at mem
    · split at mem
      · cases mem
      · exact absurd (List.mem_singleton.1 mem) (Nat.ne_of_lt lt)
    · exact mem

theorem attribute?_eq (h : d.Differs d' (fun _ => False) contents) {x : NodeId} (lt : x < d.size)
    (name : String) : d'.attribute? x name = d.attribute? x name := by
  rw [attribute?, element?, h.kind x lt id, ← element?, attribute?]

end Differs

/-- The content of a node was replaced by one new text. -/
def Filled (d d' : Document) (x : NodeId) (content : String) : Prop :=
  ∃ n, d.size ≤ n ∧ d'.children x = [n] ∧ d'.kind? n = some (.text content) ∧
    d'.parent? n = some x ∧ d'.children n = []

theorem Filled.of_setText {x : NodeId} {content : String} (h : d.setText x content = .ok d')
    (linked : d.Linked) (nonempty : content ≠ "") : d.Filled d' x content := by
  have only : d'.children x = [d.size] := by
    rw [children_setText h, if_pos rfl, if_neg nonempty]
  have parent : d'.parent? d.size = some x := by
    rw [← (linked.setText h).mem_children_iff, only]
    exact List.mem_singleton_self _
  obtain ⟨hp, rfl⟩ := setText_cases h
  rw [size_detachChildren] at hp
  have ne : d.size ≠ x := Nat.ne_of_gt hp
  refine ⟨d.size, Nat.le_refl _, only, ?_, parent, ?_⟩
  · rw [if_neg nonempty, kind?_appendChild_eq (by rwa [size_detachChildren]), size_detachChildren,
      if_pos rfl]
  · rw [children_setText h, if_neg ne, children, node?_eq_none (Nat.le_refl _)]

theorem Filled.of_size_le {x : NodeId} {content : String} (le : d.size ≤ d'.size)
    (filled : d'.Filled d'' x content) : d.Filled d'' x content := by
  obtain ⟨n, new, filled⟩ := filled
  exact ⟨n, Nat.le_trans le new, filled⟩

/-- What filled a node stays if other nodes are changed after it. -/
theorem Filled.differs {x : NodeId} {content : String} (filled : d.Filled d' x content)
    (linked : d'.Linked) (h : d'.Differs d'' (fun _ => False) contents) (out : ¬ contents x)
    (old : ∀ y, contents y → y < d.size) : d.Filled d'' x content := by
  obtain ⟨n, new, only, kind, parent, leaf⟩ := filled
  have bound := lt_size_of_kind? kind
  have hx : x < d'.size := Nat.lt_trans (linked.parent_lt parent) bound
  refine ⟨n, new, (h.children x hx out).trans only, (h.kind n bound id).trans kind, ?_, ?_⟩
  · refine (h.parent n bound fun p hp mem => ?_).trans parent
    rw [linked.mem_children_iff, parent] at mem
    exact out (Option.some.inj mem ▸ hp)
  · exact (h.children n bound fun hn => absurd (old n hn) (Nat.not_lt_of_le new)).trans leaf

/-- An element has other attributes than before, and is the same otherwise. -/
def Reattributed (d d' : Document) (x : NodeId) (R : List Attribute → List Attribute → Prop) :
    Prop :=
  ∃ e attributes, d.element? x = some e ∧ d'.element? x = some { e with attributes } ∧
    R e.attributes attributes ∧ d'.parent? x = d.parent? x ∧ d'.children x = d.children x

theorem Reattributed.differs {x : NodeId} {R : List Attribute → List Attribute → Prop}
    (changed : d.Reattributed d' x R) (h : d'.Differs d'' (fun _ => False) contents)
    (out : ¬ contents x) (kept : ∀ p, contents p → x ∉ d'.children p) : d.Reattributed d'' x R := by
  obtain ⟨e, attributes, he, he', related, parent, children⟩ := changed
  have lt := lt_size_of_element? he'
  refine ⟨e, attributes, he, ?_, related, (h.parent x lt kept).trans parent,
    (h.children x lt out).trans children⟩
  rw [element?, h.kind x lt id, ← element?, he']

section SetAttribute

variable {x y : NodeId} {name value : String} (h : d.setAttribute x name value = .ok d')

include h

theorem element?_setAttribute_self {e : Element} (he : d.element? x = some e) :
    d'.element? x = some (e.setAttribute name value) := by
  obtain ⟨e', he', rfl⟩ := setAttribute_cases h
  rw [element?_replaceElement he', if_pos rfl, Option.some.inj (he.symm.trans he')]

theorem element?_setAttribute_of_ne (ne : y ≠ x) : d'.element? y = d.element? y := by
  rw [element?, kind?_setAttribute h ne, element?]

end SetAttribute

end Document

end Xml

variable {ctx : Context} {d d' stamped : Document} {site : Site} {id issueInstant : String}

/-! ### Stamping -/

theorem setAttribute_eq_ok {x : NodeId} {e : Element} (he : d.element? x = some e)
    (name value : String) : ∃ d', d.setAttribute x name value = .ok d' := by
  rw [Document.setAttribute, he]
  exact ⟨_, rfl⟩

theorem setText_eq_ok {x : NodeId} {e : Element} (he : d.element? x = some e) (content : String) :
    ∃ d', d.setText x content = .ok d' := by
  rw [Document.setText, he]
  exact ⟨_, rfl⟩

namespace Site.Placed

/-- A template can always be stamped. -/
theorem stamp_eq_ok (placed : site.Placed d) (id issueInstant : String) :
    ∃ stamped, stamp d site.parent site id issueInstant = .ok stamped := by
  obtain ⟨e, he⟩ := placed.element
  obtain ⟨d₁, h₁⟩ := setAttribute_eq_ok he AttributeName.id id
  obtain ⟨r, hr⟩ := (placed.setAttribute h₁).reference_named.element
  obtain ⟨d₂, h₂⟩ := setAttribute_eq_ok hr AttributeName.uri ("#" ++ id)
  obtain ⟨e₂, he₂⟩ := ((placed.setAttribute h₁).setAttribute h₂).element
  obtain ⟨d₃, h₃⟩ := setAttribute_eq_ok he₂ AttributeName.issueInstant issueInstant
  exact ⟨d₃, bind_eq_ok_iff.2 ⟨d₁, h₁, bind_eq_ok_iff.2 ⟨d₂, h₂, h₃⟩⟩⟩

theorem parent_ne_reference (linked : d.Linked) (placed : site.Placed d) :
    site.parent ≠ site.reference := by
  have signature_lt := linked.child_lt placed.held
  have reference_le := (placed.below_reference linked).le linked
  exact Nat.ne_of_lt (Nat.lt_of_lt_of_le signature_lt reference_le)

end Site.Placed

section Stamp

variable (h : stamp d site.parent site id issueInstant = .ok stamped)

include h

theorem differs_stamp : d.Differs stamped (fun x => x = site.parent ∨ x = site.reference)
    fun _ => False := by
  obtain ⟨d₁, d₂, h₁, h₂, h₃⟩ := stamp_cases h
  -- each step changes the kind of one of the two nodes
  have step {d d' : Document} {x : NodeId} {name value : String}
      (hx : x = site.parent ∨ x = site.reference) (h : d.setAttribute x name value = .ok d') :
      d.Differs d' (fun x => x = site.parent ∨ x = site.reference) fun _ => False := by
    refine (Document.Differs.setAttribute h).mono ?_ fun _ => False.elim
    rintro y rfl
    exact hx
  exact ((step (.inl rfl) h₁).trans (step (.inr rfl) h₂)).trans (step (.inl rfl) h₃)

theorem sameLookups_stamp : d.SameLookups stamped := by
  obtain ⟨d₁, d₂, h₁, h₂, h₃⟩ := stamp_cases h
  have first := Document.SameLookups.setAttribute h₁ (by decide) (by decide)
  have second := Document.SameLookups.setAttribute h₂ (by decide) (by decide)
  exact (first.trans second).trans (.setAttribute h₃ (by decide) (by decide))

variable (linked : d.Linked) (placed : site.Placed d)

include linked placed

/-- The document element has its identifier and its time of issue. -/
theorem reattributed_parent_stamp : d.Reattributed stamped site.parent fun as as' =>
    ∃ between, Attribute.Assigned AttributeName.id id as between ∧
      Attribute.Assigned AttributeName.issueInstant issueInstant between as' := by
  obtain ⟨d₁, d₂, h₁, h₂, h₃⟩ := stamp_cases h
  have ne := placed.parent_ne_reference linked
  obtain ⟨e, he⟩ := placed.element
  have he₁ := Document.element?_setAttribute_self h₁ he
  rw [← Document.element?_setAttribute_of_ne h₂ ne] at he₁
  have he₃ := Document.element?_setAttribute_self h₃ he₁
  have kept := differs_stamp h
  have lt := Document.lt_size_of_element? he
  exact ⟨e, Attribute.set _ _ (Attribute.set _ _ e.attributes), he, he₃,
    ⟨_, Attribute.assigned_set _ _ _, Attribute.assigned_set _ _ _⟩,
    kept.parent _ lt fun _ => False.elim, kept.children _ lt not_false⟩

/-- The reference points to the document element. -/
theorem reattributed_reference_stamp : d.Reattributed stamped site.reference
    (Attribute.Assigned AttributeName.uri ("#" ++ id)) := by
  obtain ⟨d₁, d₂, h₁, h₂, h₃⟩ := stamp_cases h
  have ne := (placed.parent_ne_reference linked).symm
  obtain ⟨r, hr⟩ := placed.reference_named.element
  have hr₁ := hr
  rw [← Document.element?_setAttribute_of_ne h₁ ne] at hr₁
  have hr₂ := Document.element?_setAttribute_self h₂ hr₁
  rw [← Document.element?_setAttribute_of_ne h₃ ne] at hr₂
  have kept := differs_stamp h
  have lt := Document.lt_size_of_element? hr
  exact ⟨r, _, hr, hr₂, Attribute.assigned_set _ _ _, kept.parent _ lt fun _ => False.elim,
    kept.children _ lt not_false⟩

/-- The attributes that were set have their values. -/
theorem attribute?_stamp :
    stamped.attribute? site.parent AttributeName.id = some id ∧
    stamped.attribute? site.reference AttributeName.uri = some ("#" ++ id) ∧
    stamped.attribute? site.parent AttributeName.issueInstant = some issueInstant := by
  obtain ⟨d₁, d₂, h₁, h₂, h₃⟩ := stamp_cases h
  have ne := placed.parent_ne_reference linked
  refine ⟨?_, ?_, ?_⟩
  · rw [Document.attribute?_setAttribute h₃, if_neg fun both => absurd both.2 (by decide),
      Document.attribute?_setAttribute h₂, if_neg fun both => ne both.1,
      Document.attribute?_setAttribute h₁, if_pos ⟨rfl, rfl⟩]
  · rw [Document.attribute?_setAttribute h₃, if_neg fun both => ne both.1.symm,
      Document.attribute?_setAttribute h₂, if_pos ⟨rfl, rfl⟩]
  · rw [Document.attribute?_setAttribute h₃, if_pos ⟨rfl, rfl⟩]

/-- The reference is right unless the identifier is empty. -/
theorem checkLinkage_stamp : Reference.checkLinkage stamped site = .ok () ↔ id ≠ "" := by
  obtain ⟨identifier, uri, -⟩ := attribute?_stamp h linked placed
  rw [Reference.checkLinkage, uri, identifier]
  simp

end Stamp

/-! ### Stages of signing -/

theorem ofList_encode_ne_empty {bytes : Bytes} (h : bytes ≠ []) :
    String.ofList (Base64.encode bytes) ≠ "" := by
  intro empty
  have none : Base64.encode bytes = [] := by simpa using congrArg String.toList empty
  exact h (Base64.encode_injective none)

theorem Site.computeDigest_ne_empty {digest : String}
    (h : (site.computeDigest ctx d).outcome = .ok digest) : digest ≠ "" := by
  obtain ⟨-, t, -, method, -, form, -, rfl⟩ := computeDigest_eq_ok_iff.1 h
  refine ofList_encode_ne_empty fun none => ?_
  have size := method.length_hash (utf8 form)
  rw [none] at size
  cases method <;> cases size

/-- A signature is as long as the modulus, which holds more than nothing. -/
theorem Key.ne_nil_of_sign {key : Key} {method : SignatureMethod} {message value : Bytes}
    (h : key.sign method message = .ok value) : value ≠ [] := by
  rw [Key.sign] at h
  split at h
  · next key _ =>
    obtain ⟨em, encoded, -, rfl⟩ := SignatureMethod.sign_cases h
    rw [SignatureMethod.encoded?] at encoded
    split at encoded
    · cases encoded
    · next room =>
      intro none
      have size := congrArg List.length none
      rw [BigEndian.length_ofNat, List.length_nil] at size
      omega
  · cases h

theorem signingSite_eq_ok_iff {root : NodeId} : signingSite ctx d = .ok (root, site) ↔
    (∃ key, ctx.key.private? = some key) ∧ d.rootElement? = some root ∧
      ∃ signature, d.rootSignature = .ok (some signature) ∧
        Site.locate d signature .root = .ok site := by
  constructor
  · intro h
    obtain ⟨signature, element, found, located⟩ := signingSite_cases h
    refine ⟨?_, element, signature, found, located⟩
    rw [signingSite] at h
    split at h
    · cases h
    · next key => simpa [Option.isNone_iff_eq_none, Option.ne_none_iff_exists'] using key
  · rintro ⟨⟨key, hkey⟩, element, signature, found, located⟩
    have some : ¬ ctx.key.private?.isNone = true := by simp [hkey]
    rw [signingSite, if_neg some, element]
    refine bind_eq_ok_iff.2 ⟨_, found, bind_eq_ok_iff.2 ⟨site, located, rfl⟩⟩

/-- A digest can be computed and has its place, once a document is stamped with an identifier. -/
def Site.Digestible (site : Site) (d : Document) (id : String) : Prop :=
  id ≠ "" ∧ (∃ t, Reference.transforms d site.reference = .ok t) ∧
    (∃ method : DigestMethod,
      d.algorithmOf site.reference ElementName.digestMethod = .ok method.uri) ∧
    ∃ value, d.requiredChild site.reference ElementName.digestValue = .ok value

/-- The digest is put in under these conditions and no others. -/
theorem produceDigest_stamp (linked : d.Linked) (placed : site.Placed d)
    (h : stamp d site.parent site id issueInstant = .ok stamped) :
    (∃ d', (site.produceDigest ctx stamped).outcome = .ok d') ↔ site.Digestible d id := by
  have lookups := sameLookups_stamp h
  simp only [Site.produceDigest_eq_ok_iff, Site.computeDigest_eq_ok_iff,
    checkLinkage_stamp h linked placed, lookups.transforms_eq, lookups.algorithmOf_eq,
    ← Document.requiredChild_eq_ok_iff, lookups.requiredChild_eq, Site.Digestible]
  constructor
  · rintro ⟨d', digest, value, ⟨nonempty, t, transforms, method, named, -⟩, first, -⟩
    exact ⟨nonempty, ⟨t, transforms⟩, ⟨method, named⟩, value, first⟩
  · rintro ⟨nonempty, ⟨t, transforms⟩, ⟨method, named⟩, value, first⟩
    obtain ⟨e, he⟩ := (Site.Spares.stamp linked placed h).placed.element
    have form : site.signedForm stamped t = .ok _ :=
      Document.canonical_eq_ok (by rw [Document.kind?_of_element? he]; rfl) rfl
    rw [← lookups.requiredChild_eq, Document.requiredChild_eq_ok_iff] at first
    obtain ⟨v, hv⟩ := first.mem.2.element
    rw [← Document.requiredChild_eq_ok_iff, lookups.requiredChild_eq] at first
    obtain ⟨d', set⟩ := setText_eq_ok hv _
    exact ⟨d', _, value, ⟨nonempty, t, transforms, method, named, _, form, rfl⟩, first, set⟩

/-- The documents that signing goes through: with the stamp, with the digest and with the value.
Without a digest nothing changes after the stamp, and only a call that goes through puts a value
in. -/
structure Stages (ctx : Context) (site : Site) (d stamped digested : Document)
    (id issueInstant : String) (after : Signing) : Prop where
  linked : d.Linked
  placed : site.Placed d
  stamp : stamp d site.parent site id issueInstant = .ok stamped
  digest : site.Digestible d id ∧ (∃ value digest,
      d.requiredChild site.reference ElementName.digestValue = .ok value ∧
      (site.computeDigest ctx stamped).outcome = .ok digest ∧
      stamped.setText value digest = .ok digested) ∨
    ¬ site.Digestible d id ∧ digested = stamped
  value : after.trace.outcome = .ok () ∧ site.Digestible d id ∧
      (site.produceValue ctx digested).outcome = .ok after.document ∨
    after.trace.outcome ≠ .ok () ∧ after.document = digested

theorem stages_sign (linked : d.Linked) {root : NodeId}
    (found : signingSite ctx d = .ok (root, site)) (id issueInstant : String) :
    root = site.parent ∧ ∃ stamped digested,
      Stages ctx site d stamped digested id issueInstant (sign ctx d id issueInstant) := by
  obtain ⟨placed, rfl, -, -⟩ := placed_of_signingSite linked found
  have possible {stamped : Document}
      (hstamp : stamp d site.parent site id issueInstant = .ok stamped) :
      (∃ d', (site.produceDigest ctx stamped).outcome = .ok d') ↔ site.Digestible d id :=
    produceDigest_stamp linked placed hstamp
  have filled {stamped digested : Document}
      (hstamp : stamp d site.parent site id issueInstant = .ok stamped)
      (hdigest : (site.produceDigest ctx stamped).outcome = .ok digested) :
      ∃ value digest, d.requiredChild site.reference ElementName.digestValue = .ok value ∧
        (site.computeDigest ctx stamped).outcome = .ok digest ∧
        stamped.setText value digest = .ok digested := by
    obtain ⟨digest, value, computed, first, set⟩ := Site.produceDigest_eq_ok_iff.1 hdigest
    rw [← Document.requiredChild_eq_ok_iff, (sameLookups_stamp hstamp).requiredChild_eq] at first
    exact ⟨value, digest, first, computed, set⟩
  have ends := ends_sign ctx d id issueInstant
  generalize sign ctx d id issueInstant = after at ends ⊢
  refine ⟨rfl, ?_⟩
  cases ends with
  | noSite failed => cases found.symm.trans failed
  | noStamp found' failed =>
    cases found.symm.trans found'
    obtain ⟨stamped, hstamp⟩ := placed.stamp_eq_ok id issueInstant
    cases hstamp.symm.trans failed
  | @noDigest _ _ stamped e found' hstamp failed =>
    cases found.symm.trans found'
    have not : ¬ site.Digestible d id := by
      rw [← possible hstamp, failed]
      rintro ⟨d', h⟩
      cases h
    exact ⟨stamped, stamped, linked, placed, hstamp, .inr ⟨not, rfl⟩, .inr ⟨nofun, rfl⟩⟩
  | @noValue _ _ stamped digested e found' hstamp hdigest failed =>
    cases found.symm.trans found'
    have digestible := (possible hstamp).1 ⟨digested, hdigest⟩
    exact ⟨stamped, digested, linked, placed, hstamp, .inl ⟨digestible, filled hstamp hdigest⟩,
      .inr ⟨nofun, rfl⟩⟩
  | @signed _ _ stamped digested after found' hstamp hdigest hvalue =>
    cases found.symm.trans found'
    have digestible := (possible hstamp).1 ⟨digested, hdigest⟩
    exact ⟨stamped, digested, linked, placed, hstamp, .inl ⟨digestible, filled hstamp hdigest⟩,
      .inl ⟨rfl, digestible, hvalue⟩⟩

namespace Stages

variable {digested : Document} {after : Signing}
  (stages : Stages ctx site d stamped digested id issueInstant after)

include stages

theorem stamped_spares : site.Spares d stamped :=
  .stamp stages.linked stages.placed stages.stamp

theorem named_digestValue {v : NodeId}
    (hv : d.requiredChild site.reference ElementName.digestValue = .ok v) :
    stamped.FirstChild site.reference
      (stamped.Named Namespace.dsig ElementName.digestValue) v := by
  rw [← (sameLookups_stamp stages.stamp).requiredChild_eq] at hv
  exact Document.requiredChild_eq_ok_iff.1 hv

theorem digested_spares : site.Spares d digested := by
  have spares := stages.stamped_spares
  rcases stages.digest with ⟨-, v, digest, hv, computed, set⟩ | ⟨-, rfl⟩
  · have first := stages.named_digestValue hv
    exact spares.trans stages.linked (.produceDigest spares.linked spares.placed
      (Site.produceDigest_eq_ok_iff.2 ⟨digest, v, computed, first, set⟩))
  · exact spares

/-- Putting in the digest changes the content of one node. -/
theorem differs_digested : stamped.Differs digested (fun _ => False) fun x =>
    site.Digestible d id ∧ d.requiredChild site.reference ElementName.digestValue = .ok x := by
  rcases stages.digest with ⟨digestible, v, digest, hv, -, set⟩ | ⟨-, rfl⟩
  · refine (Document.Differs.setText set).mono (fun _ => False.elim) ?_
    rintro x rfl
    exact ⟨digestible, hv⟩
  · exact .refl _

/-- Putting in the value changes the content of one node. -/
theorem differs_after : digested.Differs after.document (fun _ => False) fun x =>
    after.trace.outcome = .ok () ∧ x = site.signatureValue := by
  rcases stages.value with ⟨ok, -, produced⟩ | ⟨-, same⟩
  · obtain ⟨_, _, _, -, -, set⟩ := Site.produceValue_eq_ok_iff.1 produced
    refine (Document.Differs.setText set).mono (fun _ => False.elim) ?_
    rintro x rfl
    exact ⟨ok, rfl⟩
  · rw [same]
    exact .refl _

/-- Everything that signing changes. -/
theorem differs : d.Differs after.document (fun x => x = site.parent ∨ x = site.reference) fun x =>
    site.Digestible d id ∧ d.requiredChild site.reference ElementName.digestValue = .ok x ∨
      after.trace.outcome = .ok () ∧ x = site.signatureValue :=
  ((differs_stamp stages.stamp).mono (fun _ h => h) (fun _ => False.elim)).trans
    ((stages.differs_digested.mono (fun _ => False.elim) (fun _ => .inl)).trans
      (stages.differs_after.mono (fun _ => False.elim) (fun _ => .inr)))

/-- The node for the digest is not the node for the value. -/
theorem digestValue_ne {v : NodeId}
    (hv : d.requiredChild site.reference ElementName.digestValue = .ok v) :
    v ≠ site.signatureValue :=
  (stages.named_digestValue hv).mem.2.ne stages.stamped_spares.placed.signatureValue.mem.2
    (by decide)

/-- A node before the reference, or the reference, has kept what the stamp made of it. -/
theorem reattributed {x : Nat} {R : List Attribute → List Attribute → Prop}
    (changed : d.Reattributed stamped x R) (le : x ≤ site.reference)
    (ne : x ≠ site.signatureValue) (outside : x ∉ digested.children site.signatureValue) :
    d.Reattributed after.document x R := by
  have linked := stages.stamped_spares.linked
  have kept : d.Reattributed digested x R := by
    refine changed.differs stages.differs_digested ?_ ?_
    · rintro ⟨-, hx⟩
      have lt := linked.child_lt (stages.named_digestValue hx).mem.1
      omega
    · rintro v ⟨-, hv⟩ hx
      have lt := linked.child_lt (stages.named_digestValue hv).mem.1
      have child_lt := linked.child_lt hx
      omega
  refine kept.differs stages.differs_after (fun out => ne out.2) ?_
  rintro p ⟨-, rfl⟩
  exact outside

theorem parent_reattributed : d.Reattributed after.document site.parent fun as as' =>
    ∃ between, Attribute.Assigned AttributeName.id id as between ∧
      Attribute.Assigned AttributeName.issueInstant issueInstant between as' := by
  have signature_lt := stages.linked.child_lt stages.placed.held
  have value_lt := stages.linked.child_lt stages.placed.signatureValue.mem.1
  have reference_le := (stages.placed.below_reference stages.linked).le stages.linked
  refine stages.reattributed
    (reattributed_parent_stamp stages.stamp stages.linked stages.placed) (by omega)
    (Nat.ne_of_lt (by omega)) fun mem => ?_
  have lt := stages.digested_spares.linked.child_lt mem
  omega

theorem reference_reattributed : d.Reattributed after.document site.reference
    (Attribute.Assigned AttributeName.uri ("#" ++ id)) := by
  have placed := stages.digested_spares.placed
  have linked := stages.digested_spares.linked
  refine stages.reattributed
    (reattributed_reference_stamp stages.stamp stages.linked stages.placed) (Nat.le_refl _)
    (placed.reference_named.ne placed.signatureValue.mem.2 (by decide)) fun mem => ?_
  -- the reference is a child of the signed information
  have parent := linked.mem_children_iff.1 placed.reference_mem
  rw [linked.mem_children_iff.1 mem] at parent
  exact placed.signatureValue.mem.2.ne placed.signedInfo.mem.2 (by decide) (Option.some.inj parent)

theorem linkage : Reference.checkLinkage after.document site = .ok () ↔ id ≠ "" := by
  rw [← checkLinkage_stamp stages.stamp stages.linked stages.placed]
  have placed := stages.stamped_spares.placed
  obtain ⟨e, he⟩ := placed.element
  obtain ⟨r, hr⟩ := placed.reference_named.element
  have same {x : NodeId} (lt : x < stamped.size) (name : String) :
      after.document.attribute? x name = stamped.attribute? x name :=
    (stages.differs_after.attribute?_eq (Nat.lt_of_lt_of_le lt stages.differs_digested.size)
      name).trans (stages.differs_digested.attribute?_eq lt name)
  rw [Reference.checkLinkage, Reference.checkLinkage, same (Document.lt_size_of_element? he),
    same (Document.lt_size_of_element? hr)]

/-- The digest that was put in is the one that is computed in the end. -/
theorem digest_filled (digestible : site.Digestible d id) {v : NodeId}
    (hv : d.requiredChild site.reference ElementName.digestValue = .ok v) :
    ∃ digest, (site.computeDigest ctx after.document).outcome = .ok digest ∧
      d.Filled after.document v digest := by
  rcases stages.digest with ⟨-, v', digest, hv', computed, set⟩ | ⟨not, -⟩
  case inr => exact absurd digestible not
  obtain rfl : v' = v := Except.ok.inj (hv'.symm.trans hv)
  have spares := stages.stamped_spares
  have first := stages.named_digestValue hv
  have later := stages.digested_spares
  have inDigested : (site.computeDigest ctx digested).outcome = .ok digest :=
    Site.computeDigest_setText spares.linked spares.placed
      (spares.placed.below_digestValue spares.linked first) first.mem.2 (by decide) (by decide)
      (by decide) set computed
  refine ⟨digest, ?_, ?_⟩
  · rcases stages.value with ⟨-, -, produced⟩ | ⟨-, same⟩
    · obtain ⟨_, _, _, -, -, set'⟩ := Site.produceValue_eq_ok_iff.1 produced
      exact Site.computeDigest_setText later.linked later.placed
        (later.placed.below_signatureValue later.linked) later.placed.signatureValue.mem.2
        (by decide) (by decide) (by decide) set' inDigested
    · rw [same]
      exact inDigested
  · have filled : d.Filled digested v' digest := .of_size_le (differs_stamp stages.stamp).size
      (.of_setText set spares.linked (Site.computeDigest_ne_empty computed))
    refine filled.differs later.linked stages.differs_after (fun out => ?_) ?_
    · exact stages.digestValue_ne hv out.2
    · rintro y ⟨-, rfl⟩
      exact stages.linked.child_lt_size stages.placed.signatureValue.mem.1

/-- A call that goes through puts in a signature of what is signed in the end. -/
theorem value_filled (ok : after.trace.outcome = .ok ()) :
    ∃ method form value, (site.signedInput ctx after.document).outcome = .ok (method, form) ∧
      ctx.key.sign method (utf8 form) = .ok value ∧
      d.Filled after.document site.signatureValue (String.ofList (Base64.encode value)) := by
  rcases stages.value with ⟨-, -, produced⟩ | ⟨failed, -⟩
  case inr => exact absurd ok failed
  obtain ⟨method, form, value, input, signed, set⟩ := Site.produceValue_eq_ok_iff.1 produced
  have spares := stages.digested_spares
  have place := spares.placed.signatureValue.mem
  refine ⟨method, form, value, ?_, signed, ?_⟩
  · exact Site.signedInput_setText spares.linked spares.placed place.1 place.2 (by decide) set input
  · have size := Nat.le_trans (differs_stamp stages.stamp).size stages.differs_digested.size
    exact .of_size_le size
      (.of_setText set spares.linked (ofList_encode_ne_empty (Key.ne_nil_of_sign signed)))

end Stages

/-! ### All that signing changes -/

/-- What signing leaves of a template `d` whose document element is `root` and whose site is `site`.
Of the conditions for a digest, the empty identifier is the one under which the reference fails to
point to the document element. -/
structure Footprint (ctx : Context) (d : Document) (root : NodeId) (site : Site)
    (id issueInstant : String) (after : Signing) : Prop where
  element : d.Reattributed after.document root fun as as' =>
    ∃ between, Attribute.Assigned AttributeName.id id as between ∧
      Attribute.Assigned AttributeName.issueInstant issueInstant between as'
  reference : d.Reattributed after.document site.reference
    (Attribute.Assigned AttributeName.uri ("#" ++ id))
  linkage : Reference.checkLinkage after.document site = .ok () ↔ id ≠ ""
  /-- The digest is put in if it can be computed, and only then. -/
  digest : ∀ v, d.requiredChild site.reference ElementName.digestValue = .ok v →
    (site.Digestible d id → ∃ digest,
      (site.computeDigest ctx after.document).outcome = .ok digest ∧
        d.Filled after.document v digest) ∧
    (¬ site.Digestible d id → after.document.children v = d.children v)
  /-- The value is put in if signing goes through, and only then. -/
  value : (after.trace.outcome = .ok () → ∃ method form value,
      (site.signedInput ctx after.document).outcome = .ok (method, form) ∧
        ctx.key.sign method (utf8 form) = .ok value ∧
        d.Filled after.document site.signatureValue (String.ofList (Base64.encode value))) ∧
    (after.trace.outcome ≠ .ok () →
      after.document.children site.signatureValue = d.children site.signatureValue)
  /-- All other nodes are as they were. -/
  others : d.Differs after.document (fun x => x = root ∨ x = site.reference) fun x =>
    site.Digestible d id ∧ d.requiredChild site.reference ElementName.digestValue = .ok x ∨
      after.trace.outcome = .ok () ∧ x = site.signatureValue

theorem Stages.footprint {digested : Document} {after : Signing}
    (stages : Stages ctx site d stamped digested id issueInstant after) :
    Footprint ctx d site.parent site id issueInstant after where
  element := stages.parent_reattributed
  reference := stages.reference_reattributed
  linkage := stages.linkage
  digest v hv := by
    refine ⟨fun digestible => stages.digest_filled digestible hv, fun not => ?_⟩
    have lt := stages.linked.child_lt_size (Document.requiredChild_eq_ok_iff.1 hv).mem.1
    refine stages.differs.children v lt ?_
    rintro (⟨digestible, -⟩ | ⟨-, rfl⟩)
    · exact not digestible
    · exact stages.digestValue_ne hv rfl
  value := by
    refine ⟨stages.value_filled, fun failed => ?_⟩
    have lt := stages.linked.child_lt_size stages.placed.signatureValue.mem.1
    refine stages.differs.children _ lt ?_
    rintro (⟨-, hv⟩ | ⟨ok, -⟩)
    · exact stages.digestValue_ne hv rfl
    · exact failed ok
  others := stages.differs

/-- **All that signing changes.**  With a public key, or without a document element, a signature in
it or its parts, signing leaves the document as it was.  Otherwise, whether it goes through or not,
it leaves its footprint: two attributes of the document element, one of the reference, and the
contents of two nodes, each under its own condition.  All other nodes are as they were. -/
theorem sign_footprint (hd : d.Reachable) (ctx : Context) (id issueInstant : String) :
    ((ctx.key.private? = none ∨ d.rootElement? = none ∨ d.rootSignature = .ok none ∨
        ∃ s e, d.rootSignature = .ok (some s) ∧ Site.locate d s .root = .error e) →
      (sign ctx d id issueInstant).document = d) ∧
    ∀ key root s site, ctx.key.private? = some key → d.rootElement? = some root →
      d.rootSignature = .ok (some s) → Site.locate d s .root = .ok site →
      Footprint ctx d root site id issueInstant (sign ctx d id issueInstant) := by
  constructor
  · intro early
    cases found : signingSite ctx d with
    | error e => simp only [sign, found]
    | ok pair =>
      obtain ⟨⟨key, hkey⟩, hr, s, hs, located⟩ := signingSite_eq_ok_iff.1 found
      rcases early with none | none | none | ⟨s', e, hs', failed⟩
      · rw [hkey] at none
        cases none
      · rw [hr] at none
        cases none
      · rw [hs] at none
        cases none
      · rw [hs] at hs'
        cases hs'
        rw [located] at failed
        cases failed
  · intro key root s site hkey hr hs located
    have found := signingSite_eq_ok_iff.2 ⟨⟨key, hkey⟩, hr, s, hs, located⟩
    obtain ⟨rfl, stamped, digested, stages⟩ := stages_sign hd.linked found id issueInstant
    exact stages.footprint

theorem sign_footprint_sealed :
    sealedSite.Digestible sealed "j" ∧
    (sign ⟨.privateKey sealingKey, false⟩ sealed "j" "u").trace.outcome = .ok () ∧
    Footprint ⟨.privateKey sealingKey, false⟩ sealed 1 sealedSite "j" "u"
      (sign ⟨.privateKey sealingKey, false⟩ sealed "j" "u") ∧
    ¬ sealedSite.Digestible sealed "" ∧
    Footprint ⟨.privateKey sealingKey, false⟩ sealed 1 sealedSite "" "u"
      (sign ⟨.privateKey sealingKey, false⟩ sealed "" "u") ∧
    (sign ⟨.publicKey sealingKey.publicKey, false⟩ sealed "j" "u").document = sealed := by
  have reachable : sealed.Reachable := .parse parse_sealed
  refine ⟨⟨by decide, ⟨_, rfl⟩, ⟨.sha1, rfl⟩, 11, rfl⟩, sign_sealed false, ?_, ?_, ?_, ?_⟩
  · exact (sign_footprint reachable _ "j" "u").2 sealingKey 1 2 sealedSite rfl rfl rfl rfl
  · rintro ⟨nonempty, -⟩
    exact nonempty rfl
  · exact (sign_footprint reachable _ "" "u").2 sealingKey 1 2 sealedSite rfl rfl rfl rfl
  · exact (sign_footprint reachable _ "j" "u").1 (.inl rfl)

end SamlSeal
