import SamlSeal.Proofs.Likeness
import SamlSeal.Signature.Verify

/-!
# Verdicts on documents that are alike

Verifying asks a document for children, attributes, texts and canonical forms.

* `Agree`, `Traced.Agree`: two computations end in the same fault, or in results that correspond,
* `Site.Agrees`, `verifySite_congr`: two signatures are checked alike if what is judged is the same,
* `verify_congr`, `Faithful.verify_eq`: documents whose nodes correspond are verified alike, with
  the same answer or fault, and the same events on the way.
-/

namespace SamlSeal

open Xml

/-! ### Computations that agree -/

variable {α β γ : Type} {R : α → β → Prop}

/-- Two computations end in the same fault, or in results that correspond. -/
inductive Agree (R : α → β → Prop) : Except Fault α → Except Fault β → Prop
  | ok {a : α} {b : β} (h : R a b) : Agree R (.ok a) (.ok b)
  | error (e : Fault) : Agree R (.error e) (.error e)

namespace Agree

variable {x : Except Fault α} {y : Except Fault β} (h : Agree R x y)

include h

theorem imp {S : α → β → Prop} (next : ∀ {a b}, R a b → S a b) : Agree S x y := by
  cases h with
  | ok h => exact .ok (next h)
  | error e => exact .error e

theorem bind {β' : Type} {S : γ → β' → Prop} {f : α → Except Fault γ} {g : β → Except Fault β'}
    (next : ∀ {a b}, R a b → Agree S (f a) (g b)) : Agree S (x >>= f) (y >>= g) := by
  cases h with
  | ok h => exact next h
  | error e => exact .error e

theorem bind_eq {f : α → Except Fault γ} {g : β → Except Fault γ}
    (next : ∀ {a b}, R a b → g b = f a) : y >>= g = x >>= f := by
  cases h with
  | ok h => exact next h
  | error e => rfl

theorem traced_bind_eq {f : α → Traced γ} {g : β → Traced γ}
    (next : ∀ {a b}, R a b → g b = f a) :
    (liftM y : Traced β) >>= g = (liftM x : Traced α) >>= f := by
  cases h with
  | ok h =>
    rw [Traced.bind_of_ok g rfl, Traced.bind_of_ok f rfl, next h]
    rfl
  | error e => rfl

end Agree

/-- Two computations report the same, and end in the same fault or in results that correspond. -/
structure Traced.Agree (R : α → β → Prop) (x : Traced α) (y : Traced β) : Prop where
  events : y.events = x.events
  outcome : SamlSeal.Agree R x.outcome y.outcome

namespace Traced.Agree

theorem bind {α' β' : Type} {S : α' → β' → Prop} {x : Traced α} {y : Traced β}
    (h : Traced.Agree R x y) {f : α → Traced α'} {g : β → Traced β'}
    (next : ∀ {a b}, x.outcome = .ok a → R a b → Traced.Agree S (f a) (g b)) :
    Traced.Agree S (x >>= f) (y >>= g) := by
  obtain ⟨events, outcome⟩ := h
  generalize hx : x.outcome = o, hy : y.outcome = o' at outcome
  cases outcome with
  | ok h =>
    obtain ⟨events', outcome'⟩ := next hx h
    rw [bind_of_ok f hx, bind_of_ok g hy, events, events']
    exact ⟨rfl, outcome'⟩
  | error e =>
    rw [bind_of_error f hx, bind_of_error g hy, events]
    exact ⟨rfl, .error e⟩

theorem refl (x : Traced α) : Traced.Agree Eq x x where
  events := rfl
  outcome := by
    cases x.outcome with
    | ok a => exact .ok rfl
    | error e => exact .error e

theorem lift {x : Except Fault α} {y : Except Fault β} (h : SamlSeal.Agree R x y) :
    Traced.Agree R (liftM x) (liftM y) := ⟨rfl, h⟩

end Traced.Agree

theorem requiredChild_agree {d d' : Document} {R : NodeId → NodeId → Prop} {a b : NodeId}
    {name : String} (h : Option.Rel R (d.childElement? a Namespace.dsig name)
      (d'.childElement? b Namespace.dsig name)) :
    Agree R (d.requiredChild a name) (d'.requiredChild b name) := by
  rw [Document.requiredChild, Document.requiredChild]
  rcases Document.rel_cases h with ⟨none, none'⟩ | ⟨x, y, hx, hy, hxy⟩
  · rw [none, none']
    exact .error _
  · rw [hx, hy]
    exact .ok hxy

theorem onlyReference_agree {d d' : Document} {R : NodeId → NodeId → Prop} {a b : NodeId}
    (all : List.Forall₂ R (d.childElements a Namespace.dsig ElementName.reference)
      (d'.childElements b Namespace.dsig ElementName.reference)) :
    Agree R (Site.onlyReference d a) (Site.onlyReference d' b) := by
  rw [Site.onlyReference, Site.onlyReference]
  have same := all.length_eq
  generalize d.childElements a _ _ = xs, d'.childElements b _ _ = ys at all same
  match all with
  | .nil => exact .error _
  | .cons first .nil => exact .ok first
  | .cons _ (.cons _ _) =>
    dsimp only
    rw [same]
    exact .error _

/-! ### Questions of the profile -/

namespace Xml.Document.MirrorsBelow

variable {d d' : Document} {R : NodeId → NodeId → Prop} (mirrors : MirrorsBelow d d' R)
  {a b : NodeId}

include mirrors

/-- Only the child that is found is asked. -/
theorem algorithmOf_congr {name : String} (found : Option.Rel R
    (d.childElement? a Namespace.dsig name) (d'.childElement? b Namespace.dsig name)) :
    d'.algorithmOf b name = d.algorithmOf a name :=
  (requiredChild_agree found).bind_eq fun hxy => by
    rw [mirrors.attribute?_eq hxy]

theorem algorithmOf_eq (h : R a b) (name : String) :
    d'.algorithmOf b name = d.algorithmOf a name :=
  mirrors.algorithmOf_congr (mirrors.childElement? h _ name)

theorem unwrapped_eq (h : R a b) : d'.unwrapped b = d.unwrapped a := by
  rw [Document.unwrapped, Document.unwrapped, mirrors.text_eq h]

theorem onlyReference (h : R a b) : Agree R (Site.onlyReference d a) (Site.onlyReference d' b) :=
  onlyReference_agree (mirrors.childElements h _ _)

theorem transformAlgorithm_eq (h : R a b) :
    Reference.transformAlgorithm d' b = Reference.transformAlgorithm d a := by
  rw [Reference.transformAlgorithm, Reference.transformAlgorithm, mirrors.attribute?_eq h]

theorem transformPair (found : Option.Rel R
    (d.childElement? a Namespace.dsig ElementName.transforms)
    (d'.childElement? b Namespace.dsig ElementName.transforms)) :
    Agree (fun x y => R x.1 y.1 ∧ R x.2 y.2) (Reference.transformPair d a)
      (Reference.transformPair d' b) := by
  rw [Reference.transformPair, Reference.transformPair]
  rcases rel_cases found with ⟨none, none'⟩ | ⟨x, y, hx, hy, hxy⟩
  · rw [none, none']
    exact .error _
  rw [hx, hy]
  have all := mirrors.childElements hxy Namespace.dsig ElementName.transform
  have same := all.length_eq
  dsimp only
  generalize d.childElements x _ _ = xs, d'.childElements y _ _ = ys at all same
  match all with
  | .nil => exact .error _
  | .cons _ .nil => exact .error _
  | .cons first (.cons second .nil) => exact .ok ⟨first, second⟩
  | .cons _ (.cons _ (.cons _ _)) =>
    dsimp only
    rw [same]
    exact .error _

theorem prefixes_eq (h : R a b) : Reference.prefixes d' b = Reference.prefixes d a := by
  rw [Reference.prefixes, Reference.prefixes]
  rcases rel_cases (mirrors.childNamed? h ElementName.inclusiveNamespaces) with
    ⟨none, none'⟩ | ⟨x, y, hx, hy, hxy⟩
  · rw [none, none']
    rfl
  · rw [hx, hy, Option.map_some, Option.map_some, mirrors.attribute?_eq hxy]

/-- Of the children of a reference, the transforms depend on one only. -/
theorem transforms_congr (found : Option.Rel R
    (d.childElement? a Namespace.dsig ElementName.transforms)
    (d'.childElement? b Namespace.dsig ElementName.transforms)) :
    Reference.transforms d' b = Reference.transforms d a := by
  refine (mirrors.transformPair found).bind_eq fun {x y} hxy => ?_
  obtain ⟨first, second⟩ := hxy
  simp only [mirrors.transformAlgorithm_eq first, mirrors.transformAlgorithm_eq second,
    mirrors.prefixes_eq second]

theorem transforms_eq (h : R a b) : Reference.transforms d' b = Reference.transforms d a :=
  mirrors.transforms_congr (mirrors.childElement? h _ _)

end Xml.Document.MirrorsBelow

/-! ### Sites that are judged alike -/

/-- Sites of two documents that agree in what is judged: what is below the signed information, the
canonical forms, the identifier of the signed element, and the signature value. -/
structure Site.Agrees (d d' : Document) (R : NodeId → NodeId → Prop) (site site' : Site) :
    Prop where
  kind : site'.kind = site.kind
  identifier : d'.attribute? site'.parent AttributeName.id =
    d.attribute? site.parent AttributeName.id
  form : ∀ comments inclusive,
    d'.canonical site'.parent (some site'.signature) comments inclusive =
      d.canonical site.parent (some site.signature) comments inclusive
  signedInfo : R site.signedInfo site'.signedInfo
  signedInfoForm : ∀ comments, d'.canonical site'.signedInfo none comments [] =
    d.canonical site.signedInfo none comments []
  reference : R site.reference site'.reference
  value : d'.unwrapped site'.signatureValue = d.unwrapped site.signatureValue

namespace Site

variable {d d' : Document} {R : NodeId → NodeId → Prop}

/-- Two signatures are located alike, if their parts are. -/
theorem locate_agree {P Q V : NodeId → NodeId → Prop} {S : Site → Site → Prop} {s s' : NodeId}
    {kind : SiteKind} (parent : Agree P (holder d s) (holder d' s'))
    (info : Agree Q (d.requiredChild s ElementName.signedInfo)
      (d'.requiredChild s' ElementName.signedInfo))
    (reference : ∀ {i i'}, Q i i' → Agree R (onlyReference d i) (onlyReference d' i'))
    (value : Agree V (d.requiredChild s ElementName.signatureValue)
      (d'.requiredChild s' ElementName.signatureValue))
    (whole : ∀ {p p' i i' r r' v v'}, P p p' → Q i i' → R r r' → V v v' →
      S ⟨kind, s, p, i, r, v⟩ ⟨kind, s', p', i', r', v'⟩) :
    Agree S (locate d s kind) (locate d' s' kind) :=
  parent.bind fun hp => info.bind fun hi => (reference hi).bind fun hr => value.bind fun hv =>
    .ok (whole hp hi hr hv)

namespace Agrees

variable {site site' : Site} (h : Agrees d d' R site site') (mirrors : d.MirrorsBelow d' R)
  (ctx : Context)

include h mirrors

theorem computeDigest_eq : site'.computeDigest ctx d' = site.computeDigest ctx d := by
  have linkage : Reference.checkLinkage d' site' = Reference.checkLinkage d site := by
    rw [Reference.checkLinkage, Reference.checkLinkage, mirrors.attribute?_eq h.reference,
      h.identifier]
  have form (t : Reference.Transforms) : site'.signedForm d' t = site.signedForm d t := h.form _ _
  simp only [Site.computeDigest, linkage, mirrors.transforms_eq h.reference,
    mirrors.algorithmOf_eq h.reference, form, h.kind]

theorem verifyDigest_eq : site'.verifyDigest ctx d' = site.verifyDigest ctx d := by
  rw [Site.verifyDigest, Site.verifyDigest, h.computeDigest_eq mirrors]
  refine congrArg (site.computeDigest ctx d >>= ·) (funext fun computed => ?_)
  have found := requiredChild_agree (mirrors.childElement? h.reference _ ElementName.digestValue)
  refine found.traced_bind_eq fun hvalue => ?_
  rw [mirrors.unwrapped_eq hvalue, h.kind]

theorem verifyValue_eq : site'.verifyValue ctx d' = site.verifyValue ctx d := by
  have form : SamlSeal.signedInfoForm d' site'.signedInfo =
      SamlSeal.signedInfoForm d site.signedInfo := by
    simp only [SamlSeal.signedInfoForm, mirrors.algorithmOf_eq h.signedInfo, h.signedInfoForm]
  have bytes : site'.valueBytes d' = site.valueBytes d := by
    rw [Site.valueBytes, Site.valueBytes, h.value]
  simp only [Site.verifyValue, Site.signedInput, mirrors.algorithmOf_eq h.signedInfo, form, bytes,
    h.kind]

end Agrees

end Site

/-- Signatures whose sites agree are checked alike. -/
theorem verifySite_congr {d d' : Document} {R : NodeId → NodeId → Prop}
    (mirrors : d.MirrorsBelow d' R) {kind : SiteKind} {s s' : NodeId}
    (located : Agree (Site.Agrees d d' R) (Site.locate d s kind) (Site.locate d' s' kind))
    (ctx : Context) : verifySite ctx d' kind s' = verifySite ctx d kind s := by
  refine located.traced_bind_eq fun hsite => ?_
  simp only [hsite.verifyDigest_eq mirrors, hsite.verifyValue_eq mirrors]

/-- Documents are verified alike if their signatures correspond and are checked alike. -/
theorem verify_congr {d d' : Document} {S : NodeId → NodeId → Prop} {ctx : Context}
    (root : Agree (Option.Rel S) d.rootSignature d'.rootSignature)
    (assertion : Option.Rel S d.assertionSignature? d'.assertionSignature?)
    (sites : ∀ {s s'}, S s s' → ∀ kind, verifySite ctx d' kind s' = verifySite ctx d kind s) :
    verify ctx d' = verify ctx d := by
  have first : verifyAssertion ctx d' = verifyAssertion ctx d := by
    rw [verifyAssertion, verifyAssertion]
    rcases Document.rel_cases assertion with ⟨none, none'⟩ | ⟨s, s', hs, hs', h⟩
    · rw [none, none']
    · rw [hs, hs']
      exact sites h .assertion
  refine root.traced_bind_eq fun h => ?_
  cases h with
  | none => rfl
  | some h =>
    dsimp only
    rw [first, sites h]

/-! ### Documents that mirror each other -/

/-- Nodes of two documents correspond in a way that keeps all that verifying asks for: kinds,
children, parents and canonical forms. -/
structure Xml.Document.Faithful (d d' : Document) (R : NodeId → NodeId → Prop) : Prop where
  below : MirrorsBelow d d' R
  top : R Document.root Document.root
  parent : ∀ {a b}, R a b → d.parent? a = none ∧ d'.parent? b = none ∨
    ∃ p q, d.parent? a = some p ∧ d'.parent? b = some q ∧ R p q
  form : ∀ {a b}, R a b → ∀ {excluded excluded'}, Option.Rel R excluded excluded' →
    ∀ comments inclusive, d'.canonical b excluded' comments inclusive =
      d.canonical a excluded comments inclusive

/-- Sites of two documents whose parts correspond. -/
structure Site.Mirrors (R : NodeId → NodeId → Prop) (site site' : Site) : Prop where
  kind : site'.kind = site.kind
  signature : R site.signature site'.signature
  parent : R site.parent site'.parent
  signedInfo : R site.signedInfo site'.signedInfo
  reference : R site.reference site'.reference
  signatureValue : R site.signatureValue site'.signatureValue

namespace Xml.Document.Faithful

variable {d d' : Document} {R : NodeId → NodeId → Prop} (faithful : Faithful d d' R)

include faithful

theorem rootElement? : Option.Rel R d.rootElement? d'.rootElement? :=
  faithful.below.find?_children faithful.top faithful.below.isElement_eq id id

theorem rootSignature : Agree (Option.Rel R) d.rootSignature d'.rootSignature := by
  rw [Document.rootSignature, Document.rootSignature]
  rcases rel_cases faithful.rootElement? with ⟨none, none'⟩ | ⟨x, y, hx, hy, hxy⟩
  · rw [none, none']
    exact .error _
  · rw [hx, hy]
    exact .ok (faithful.below.childElement? hxy _ _)

theorem assertionSignature? : Option.Rel R d.assertionSignature? d'.assertionSignature? := by
  rw [Document.assertionSignature?, Document.assertionSignature?]
  rcases rel_cases faithful.rootElement? with ⟨none, none'⟩ | ⟨x, y, hx, hy, hxy⟩
  · rw [none, none']
    exact .none
  rw [hx, hy]
  simp only [bind, Option.bind_some]
  rcases rel_cases (faithful.below.childElement? hxy Namespace.samlAssertion ElementName.assertion)
    with ⟨none, none'⟩ | ⟨x, y, hx, hy, hxy⟩
  · rw [none, none']
    exact .none
  rw [hx, hy]
  exact faithful.below.childElement? hxy _ _

theorem locate {a b : NodeId} (h : R a b) (kind : SiteKind) :
    Agree (Site.Mirrors R) (Site.locate d a kind) (Site.locate d' b kind) := by
  have holder : Agree R (Site.holder d a) (Site.holder d' b) := by
    rw [Site.holder, Site.holder]
    rcases faithful.parent h with ⟨none, none'⟩ | ⟨p, q, hp, hq, hpq⟩
    · rw [none, none']
      exact .error _
    · rw [hp, hq]
      dsimp only
      rw [faithful.below.isElement_eq hpq]
      split
      · exact .ok hpq
      · exact .error _
  exact Site.locate_agree holder (requiredChild_agree (faithful.below.childElement? h _ _))
    faithful.below.onlyReference (requiredChild_agree (faithful.below.childElement? h _ _))
    fun hp hi hr hv => ⟨rfl, h, hp, hi, hr, hv⟩

theorem agrees {site site' : Site} (h : Site.Mirrors R site site') :
    Site.Agrees d d' R site site' where
  kind := h.kind
  identifier := faithful.below.attribute?_eq h.parent _
  form := faithful.form h.parent (.some h.signature)
  signedInfo := h.signedInfo
  signedInfoForm comments := faithful.form h.signedInfo .none comments []
  reference := h.reference
  value := faithful.below.unwrapped_eq h.signatureValue

variable (ctx : Context)

theorem verifySite_eq {a b : NodeId} (h : R a b) (kind : SiteKind) :
    verifySite ctx d' kind b = verifySite ctx d kind a :=
  verifySite_congr faithful.below ((faithful.locate h kind).imp faithful.agrees) ctx

/-- Documents that correspond are verified alike: with the same answer or fault, and the same events
on the way. -/
theorem verify_eq : verify ctx d' = verify ctx d :=
  verify_congr faithful.rootSignature faithful.assertionSignature? fun h =>
    faithful.verifySite_eq ctx h

end Xml.Document.Faithful

namespace Xml.Document.Mirrors

variable {d d' : Document} {R : NodeId → NodeId → Prop} (mirrors : Mirrors d d' R)
  (linked : d.Linked) (linked' : d'.Linked)

include mirrors linked linked'

theorem faithful : Faithful d d' R where
  below := mirrors.below
  top := mirrors.top
  parent := mirrors.parent
  form h _ _ hx := mirrors.canonical_eq linked linked' h hx

/-- Documents that mirror each other are verified alike. -/
theorem verify_eq (ctx : Context) : verify ctx d' = verify ctx d :=
  (mirrors.faithful linked linked').verify_eq ctx

end Xml.Document.Mirrors

end SamlSeal
