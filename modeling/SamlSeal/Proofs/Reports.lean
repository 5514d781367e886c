import SamlSeal.Proofs.Signing

/-!
# What the reports tell

Verifying and signing report what they do, at three levels.  The reports alone tell how it went:

* `Traced.Quiet`: whatever does not come to a verdict reports at the lowest level only,
* `SiteRun`: how checking one signature can end, and what is reported at each end,
* `Traced.Extends`: asking for canonical forms inserts reports and changes nothing else,
* `reports_tell_outcome`: a warning is the last word of a check that comes out false, and of no
  other; each signature that holds leaves its three reports; signing ends with its own report if it
  goes through; and the reports of canonical forms are of those that are hashed and signed.
-/

namespace SamlSeal

open Xml

/-! ### Computations and their events -/

namespace Traced

variable {α β : Type}

/-- Nothing is reported above the lowest level. -/
def Quiet (x : Traced α) : Prop := ∀ e ∈ x.events, e.level = .debug

namespace Quiet

theorem lift (x : Except Fault α) : Quiet (liftM x) := by
  intro e he
  cases he

theorem logIf (c : Bool) {e : Event} (h : e.level = .debug) : Quiet (logIf c e) := by
  intro e' he
  cases c with
  | false => cases he
  | true =>
    obtain rfl := List.mem_singleton.1 he
    exact h

theorem bind {x : Traced α} {f : α → Traced β} (h : x.Quiet)
    (next : ∀ a, x.outcome = .ok a → (f a).Quiet) : (x >>= f).Quiet := by
  intro e he
  cases out : x.outcome with
  | error fault =>
    rw [bind_of_error f out] at he
    exact h e he
  | ok a =>
    rw [bind_of_ok f out] at he
    rcases List.mem_append.1 he with he | he
    · exact h e he
    · exact next a out e he

end Quiet

theorem liftM_ok_bind (a : α) (f : α → Traced β) :
    (liftM (.ok a : Except Fault α) : Traced α) >>= f = f a :=
  bind_of_ok f rfl

theorem log_bind (e : Event) (f : Unit → Traced β) :
    log e >>= f = ⟨e :: (f ()).events, (f ()).outcome⟩ :=
  bind_of_ok f rfl

theorem logIf_bind (c : Bool) (e : Event) (f : Unit → Traced β) :
    logIf c e >>= f = ⟨(logIf c e).events ++ (f ()).events, (f ()).outcome⟩ :=
  bind_of_ok f (outcome_logIf c e)

end Traced

/-! ### What is hashed and what is signed -/

/-- The canonical form of the signed element, and its digest by the method of the reference. -/
inductive Site.Hashes (d : Document) (site : Site) (form : String) : String → Prop
  | intro {t : Reference.Transforms} {method : DigestMethod}
      (linked : Reference.checkLinkage d site = .ok ())
      (transforms : Reference.transforms d site.reference = .ok t)
      (algorithm : d.algorithmOf site.reference ElementName.digestMethod = .ok method.uri)
      (written : site.signedForm d t = .ok form) :
      Hashes d site form (String.ofList (Base64.encode (method.hash (utf8 form))))

/-- The digest that the reference states. -/
def Site.Expects (d : Document) (site : Site) (expected : String) : Prop :=
  ∃ value, d.requiredChild site.reference ElementName.digestValue = .ok value ∧
    expected = String.ofList (d.unwrapped value)

/-- The signature method, and the canonical form of the signed information that it is for. -/
structure Site.Signs (d : Document) (site : Site) (method : SignatureMethod) (form : String) :
    Prop where
  algorithm : d.algorithmOf site.signedInfo ElementName.signatureMethod = .ok method.uri
  written : signedInfoForm d site.signedInfo = .ok form

namespace Site

variable {ctx : Context} {d : Document} {site : Site}

theorem hashes_of_computeDigest {digest : String}
    (h : (site.computeDigest ctx d).outcome = .ok digest) : ∃ form, site.Hashes d form digest := by
  obtain ⟨linked, t, ht, method, algorithm, form, written, rfl⟩ := computeDigest_eq_ok_iff.1 h
  exact ⟨form, linked, ht, algorithm, written⟩

theorem Hashes.computeDigest_eq {form digest : String} (h : site.Hashes d form digest)
    (ctx : Context) : site.computeDigest ctx d =
      ⟨(Traced.logIf ctx.debug (.preDigest site.kind form)).events, .ok digest⟩ := by
  obtain @⟨t, method, linked, transforms, algorithm, written⟩ := h
  have known : DigestMethod.ofUri method.uri = .ok method := DigestMethod.ofUri_eq_ok_iff.2 rfl
  simp only [computeDigest, linked, transforms, algorithm, known, written, Traced.liftM_ok_bind,
    Traced.logIf_bind, Traced.events_pure, Traced.outcome_pure, List.append_nil]

theorem quiet_computeDigest (ctx : Context) (d : Document) (site : Site) :
    (site.computeDigest ctx d).Quiet := by
  refine (Traced.Quiet.lift _).bind fun _ _ => (Traced.Quiet.lift _).bind fun _ _ =>
    (Traced.Quiet.lift _).bind fun _ _ => (Traced.Quiet.lift _).bind fun _ _ =>
    (Traced.Quiet.lift _).bind fun _ _ => (Traced.Quiet.logIf _ rfl).bind fun _ _ => ?_
  exact Traced.Quiet.lift (.ok _)

theorem signs_of_signedInput {method : SignatureMethod} {form : String}
    (h : (site.signedInput ctx d).outcome = .ok (method, form)) : site.Signs d method form := by
  obtain ⟨algorithm, written⟩ := signedInput_eq_ok_iff.1 h
  exact ⟨algorithm, written⟩

theorem Signs.signedInput_eq {method : SignatureMethod} {form : String}
    (h : site.Signs d method form) (ctx : Context) : site.signedInput ctx d =
      ⟨(Traced.logIf ctx.debug (.preSignature site.kind form)).events, .ok (method, form)⟩ := by
  have known : SignatureMethod.ofUri method.uri = .ok method :=
    SignatureMethod.ofUri_eq_ok_iff.2 rfl
  simp only [signedInput, h.algorithm, h.written, known, Traced.liftM_ok_bind,
    Traced.logIf_bind, Traced.events_pure, Traced.outcome_pure, List.append_nil]

theorem quiet_signedInput (ctx : Context) (d : Document) (site : Site) :
    (site.signedInput ctx d).Quiet := by
  refine (Traced.Quiet.lift _).bind fun _ _ => (Traced.Quiet.lift _).bind fun _ _ =>
    (Traced.Quiet.lift _).bind fun _ _ => (Traced.Quiet.logIf _ rfl).bind fun _ _ => ?_
  exact Traced.Quiet.lift (.ok _)

/-! ### Checks of one site -/

/-- The reports on a digest that is compared. -/
def digestReports (ctx : Context) (kind : SiteKind) (form computed expected : String) :
    List Event :=
  (Traced.logIf ctx.debug (.preDigest kind form)).events ++
    [.referenceDigest kind computed expected]

/-- The reports on a value that is checked. -/
def valueReports (ctx : Context) (kind : SiteKind) (form : String) (method : SignatureMethod) :
    List Event :=
  (Traced.logIf ctx.debug (.preSignature kind form)).events ++ [.verifyingValue kind method.uri]

/-- How comparing a digest can end. -/
inductive DigestRun (ctx : Context) (d : Document) (site : Site) (run : Traced Bool) : Prop
  | fault {e : Fault} (outcome : run.outcome = .error e) (quiet : run.Quiet)
  | mismatch {form computed expected : String} (hashes : site.Hashes d form computed)
      (expects : site.Expects d expected) (differ : computed ≠ expected)
      (eq : run = ⟨digestReports ctx site.kind form computed expected ++
        [.digestMismatch site.kind], .ok false⟩)
  | passed {form digest : String} (hashes : site.Hashes d form digest)
      (expects : site.Expects d digest)
      (eq : run = ⟨digestReports ctx site.kind form digest digest, .ok true⟩)

theorem digestRun_verifyDigest (ctx : Context) (d : Document) (site : Site) :
    DigestRun ctx d site (site.verifyDigest ctx d) := by
  rw [verifyDigest]
  cases hcomputed : (site.computeDigest ctx d).outcome with
  | error e =>
    rw [Traced.bind_of_error _ hcomputed]
    exact .fault rfl (quiet_computeDigest ctx d site)
  | ok computed =>
    obtain ⟨form, hashes⟩ := hashes_of_computeDigest hcomputed
    cases hvalue : d.requiredChild site.reference ElementName.digestValue with
    | error e =>
      refine .fault (e := e) ?_ ((quiet_computeDigest ctx d site).bind fun _ _ => .lift (.error e))
      rw [Traced.bind_of_ok _ hcomputed]
      rfl
    | ok value =>
      have expects : site.Expects d (String.ofList (d.unwrapped value)) := ⟨value, hvalue, rfl⟩
      rw [hashes.computeDigest_eq, Traced.bind_of_ok _ rfl]
      simp only [Traced.liftM_ok_bind, Traced.log_bind, Traced.logIf_bind, Traced.events_pure,
        Traced.outcome_pure, List.append_nil]
      by_cases same : computed = String.ofList (d.unwrapped value)
      · rw [← same] at expects ⊢
        refine .passed hashes expects ?_
        simp [digestReports, Traced.logIf]
      · refine .mismatch hashes expects same ?_
        simp [digestReports, Traced.logIf, same]

/-- How checking a value can end. -/
inductive ValueRun (ctx : Context) (d : Document) (site : Site) (run : Traced Bool) : Prop
  | fault {e : Fault} (outcome : run.outcome = .error e) (quiet : run.Quiet)
  | mismatch {method : SignatureMethod} {form : String} {value : Bytes}
      (signs : site.Signs d method form) (bytes : site.valueBytes d = .ok value)
      (invalid : ctx.key.verify method (utf8 form) value = false)
      (eq : run = ⟨valueReports ctx site.kind form method ++ [.valueMismatch site.kind], .ok false⟩)
  | passed {method : SignatureMethod} {form : String} {value : Bytes}
      (signs : site.Signs d method form) (bytes : site.valueBytes d = .ok value)
      (valid : ctx.key.verify method (utf8 form) value = true)
      (eq : run = ⟨valueReports ctx site.kind form method, .ok true⟩)

theorem valueRun_verifyValue (ctx : Context) (d : Document) (site : Site) :
    ValueRun ctx d site (site.verifyValue ctx d) := by
  rw [verifyValue]
  cases hinput : (site.signedInput ctx d).outcome with
  | error e =>
    rw [Traced.bind_of_error _ hinput]
    exact .fault rfl (quiet_signedInput ctx d site)
  | ok input =>
    obtain ⟨method, form⟩ := input
    have signs := signs_of_signedInput hinput
    cases bytes : site.valueBytes d with
    | error e =>
      refine .fault (e := e) ?_ ((quiet_signedInput ctx d site).bind fun _ _ => .lift (.error e))
      rw [Traced.bind_of_ok _ hinput]
      rfl
    | ok value =>
      rw [signs.signedInput_eq, Traced.bind_of_ok _ rfl]
      simp only [Traced.liftM_ok_bind, Traced.log_bind, Traced.logIf_bind, Traced.events_pure,
        Traced.outcome_pure, List.append_nil]
      cases valid : ctx.key.verify method (utf8 form) value with
      | true =>
        refine .passed signs bytes valid ?_
        simp [valueReports, Traced.logIf]
      | false =>
        refine .mismatch signs bytes valid ?_
        simp [valueReports, Traced.logIf]

end Site

/-- A signature is checked and holds, with these reports. -/
inductive SitePassed (ctx : Context) (d : Document) (kind : SiteKind) (signature : NodeId) :
    List Event → Prop
  | intro {site : Site} {form digest : String} {method : SignatureMethod} {info : String}
      {value : Bytes} (located : Site.locate d signature kind = .ok site)
      (hashes : site.Hashes d form digest) (expects : site.Expects d digest)
      (signs : site.Signs d method info) (bytes : site.valueBytes d = .ok value)
      (valid : ctx.key.verify method (utf8 info) value = true) :
      SitePassed ctx d kind signature (.verifyingSignature kind ::
        (Site.digestReports ctx kind form digest digest ++ Site.valueReports ctx kind info method))

/-- A signature is checked and does not hold: by its digest, or if that is right, by its value.  The
report says which. -/
inductive SiteMismatch (ctx : Context) (d : Document) (kind : SiteKind) (signature : NodeId) :
    Event → Prop
  | digest {site : Site} {form computed expected : String}
      (located : Site.locate d signature kind = .ok site)
      (hashes : site.Hashes d form computed) (expects : site.Expects d expected)
      (differ : computed ≠ expected) :
      SiteMismatch ctx d kind signature (.digestMismatch kind)
  | value {site : Site} {form digest : String} {method : SignatureMethod} {info : String}
      {value : Bytes} (located : Site.locate d signature kind = .ok site)
      (hashes : site.Hashes d form digest) (expects : site.Expects d digest)
      (signs : site.Signs d method info) (bytes : site.valueBytes d = .ok value)
      (invalid : ctx.key.verify method (utf8 info) value = false) :
      SiteMismatch ctx d kind signature (.valueMismatch kind)

/-- How checking a signature can end. -/
inductive SiteRun (ctx : Context) (d : Document) (kind : SiteKind) (signature : NodeId)
    (run : Traced Bool) : Prop
  | fault {e : Fault} (outcome : run.outcome = .error e) (quiet : run.Quiet)
  | mismatch (before : List Event) {e : Event} (outcome : run.outcome = .ok false)
      (events : run.events = before ++ [e]) (quiet : ∀ b ∈ before, b.level = .debug)
      (names : SiteMismatch ctx d kind signature e)
  | passed (outcome : run.outcome = .ok true)
      (reports : SitePassed ctx d kind signature run.events)

section Sites

variable {ctx : Context} {d : Document} {kind : SiteKind} {signature : NodeId}

/-- A report that may be left out, and one more. -/
theorem level_of_mem_logIf_append {debug : Bool} {first last e : Event}
    (hf : first.level = .debug) (hl : last.level = .debug)
    (h : e ∈ (Traced.logIf debug first).events ++ [last]) : e.level = .debug := by
  rcases List.mem_append.1 h with h | h
  · exact Traced.Quiet.logIf debug hf e h
  · rwa [List.mem_singleton.1 h]

theorem level_of_mem_digestReports {form computed expected : String} {e : Event}
    (h : e ∈ Site.digestReports ctx kind form computed expected) : e.level = .debug :=
  level_of_mem_logIf_append rfl rfl h

theorem level_of_mem_valueReports {form : String} {method : SignatureMethod} {e : Event}
    (h : e ∈ Site.valueReports ctx kind form method) : e.level = .debug :=
  level_of_mem_logIf_append rfl rfl h

theorem SitePassed.level_of_mem {events : List Event} (h : SitePassed ctx d kind signature events)
    {e : Event} (he : e ∈ events) : e.level = .debug := by
  cases h with
  | intro located hashes expects signs bytes valid =>
    rcases List.mem_cons.1 he with rfl | he
    · rfl
    rcases List.mem_append.1 he with he | he
    · exact level_of_mem_digestReports he
    · exact level_of_mem_valueReports he

theorem Site.kind_of_locate {site : Site} (h : Site.locate d signature kind = .ok site) :
    site.kind = kind := by
  obtain ⟨p, -, h⟩ := bind_eq_ok_iff.1 h
  obtain ⟨i, -, h⟩ := bind_eq_ok_iff.1 h
  obtain ⟨r, -, h⟩ := bind_eq_ok_iff.1 h
  obtain ⟨v, -, h⟩ := bind_eq_ok_iff.1 h
  obtain rfl := Except.ok.inj h
  rfl

/-- A signature is located, its digest is compared, and if that is right, its value is checked. -/
theorem siteRun_verifySite (ctx : Context) (d : Document) (kind : SiteKind) (signature : NodeId) :
    SiteRun ctx d kind signature (verifySite ctx d kind signature) := by
  rw [verifySite]
  cases located : Site.locate d signature kind with
  | error e => exact .fault rfl (.lift (.error e))
  | ok site =>
    obtain rfl := Site.kind_of_locate located
    rw [Traced.liftM_ok_bind, Traced.log_bind]
    cases Site.digestRun_verifyDigest ctx d site with
    | fault outcome quiet =>
      rw [Traced.bind_of_error _ outcome]
      exact .fault rfl (List.forall_mem_cons.2 ⟨rfl, quiet⟩)
    | @mismatch form computed expected hashes expects differ eq =>
      rw [eq, Traced.bind_of_ok _ rfl]
      refine .mismatch (.verifyingSignature site.kind ::
        Site.digestReports ctx site.kind form computed expected) rfl ?_
        (List.forall_mem_cons.2 ⟨rfl, fun _ => level_of_mem_digestReports⟩)
        (.digest located hashes expects differ)
      simp
    | @passed form digest hashes expects eq =>
      rw [eq, Traced.bind_of_ok _ rfl]
      have first (e : Event) (h : e ∈ Site.digestReports ctx site.kind form digest digest) :
          e.level = .debug := level_of_mem_digestReports h
      dsimp only
      rw [if_pos rfl]
      cases Site.valueRun_verifyValue ctx d site with
      | fault outcome quiet =>
        exact .fault outcome (List.forall_mem_cons.2 ⟨rfl, List.forall_mem_append.2 ⟨first, quiet⟩⟩)
      | @mismatch method info value signs bytes invalid eq =>
        rw [eq]
        refine .mismatch (.verifyingSignature site.kind ::
          (Site.digestReports ctx site.kind form digest digest ++
            Site.valueReports ctx site.kind info method)) rfl ?_
          (List.forall_mem_cons.2 ⟨rfl, List.forall_mem_append.2
            ⟨first, fun _ => level_of_mem_valueReports⟩⟩)
          (.value located hashes expects signs bytes invalid)
        simp
      | passed signs bytes valid eq =>
        rw [eq]
        exact .passed rfl (.intro located hashes expects signs bytes valid)

end Sites

/-! ### Checks of a message -/

/-- The signature of the assertion holds, with these reports, or there is none. -/
inductive AssertionPassed (ctx : Context) (d : Document) : List Event → Prop
  | absent (h : d.assertionSignature? = none) : AssertionPassed ctx d []
  | present {signature : NodeId} {events : List Event}
      (h : d.assertionSignature? = some signature)
      (passed : SitePassed ctx d .assertion signature events) : AssertionPassed ctx d events

/-- The first signature of a message that does not hold. -/
inductive Mismatch (ctx : Context) (d : Document) : Event → Prop
  | assertion {signature : NodeId} {e : Event} (h : d.assertionSignature? = some signature)
      (names : SiteMismatch ctx d .assertion signature e) : Mismatch ctx d e
  | root {signature : NodeId} {e : Event} {before : List Event}
      (h : d.rootSignature = .ok (some signature)) (first : AssertionPassed ctx d before)
      (names : SiteMismatch ctx d .root signature e) : Mismatch ctx d e

/-- How verifying a message can end. -/
inductive MessageRun (ctx : Context) (d : Document) (run : Traced Bool) : Prop
  | fault {e : Fault} (outcome : run.outcome = .error e) (quiet : run.Quiet)
  | mismatch (before : List Event) {e : Event} (outcome : run.outcome = .ok false)
      (events : run.events = before ++ [e]) (quiet : ∀ b ∈ before, b.level = .debug)
      (names : Mismatch ctx d e)
  | passed (before after : List Event) {signature : NodeId} (outcome : run.outcome = .ok true)
      (events : run.events = before ++ after) (first : AssertionPassed ctx d before)
      (h : d.rootSignature = .ok (some signature))
      (second : SitePassed ctx d .root signature after)

section Messages

variable {ctx : Context} {d : Document}

theorem AssertionPassed.level_of_mem {events : List Event} (h : AssertionPassed ctx d events)
    {e : Event} (he : e ∈ events) : e.level = .debug := by
  cases h with
  | absent => cases he
  | present h passed => exact passed.level_of_mem he

/-- The signature of the message is checked after that of the assertion has passed. -/
theorem messageRun_of_siteRun {signature : NodeId} (h : d.rootSignature = .ok (some signature))
    {before : List Event} (first : AssertionPassed ctx d before) {run : Traced Bool}
    (second : SiteRun ctx d .root signature run) :
    MessageRun ctx d ⟨before ++ run.events, run.outcome⟩ := by
  have level (e : Event) (he : e ∈ before) : e.level = .debug := first.level_of_mem he
  cases second with
  | fault outcome quiet => exact .fault outcome (List.forall_mem_append.2 ⟨level, quiet⟩)
  | mismatch before' outcome events quiet names =>
    refine .mismatch (before ++ before') outcome ?_ (List.forall_mem_append.2 ⟨level, quiet⟩)
      (.root h first names)
    rw [events, List.append_assoc]
  | passed outcome reports => exact .passed before run.events outcome rfl first h reports

theorem messageRun_verify (ctx : Context) (d : Document) :
    MessageRun ctx d (verify ctx d) := by
  rw [verify]
  cases root : d.rootSignature with
  | error e => exact .fault rfl (.lift (.error e))
  | ok found =>
    rw [Traced.liftM_ok_bind]
    cases found with
    | none => exact .fault rfl (.lift (.error _))
    | some signature =>
      have second := siteRun_verifySite ctx d .root signature
      dsimp only
      rw [verifyAssertion]
      cases assertion : d.assertionSignature? with
      | none =>
        rw [Traced.bind_of_ok _ rfl]
        exact messageRun_of_siteRun root (.absent assertion) second
      | some signature' =>
        dsimp only
        cases siteRun_verifySite ctx d .assertion signature' with
        | fault outcome quiet =>
          rw [Traced.bind_of_error _ outcome]
          exact .fault rfl quiet
        | mismatch before outcome events quiet names =>
          rw [Traced.bind_of_ok _ outcome]
          refine .mismatch before rfl ?_ quiet (.assertion assertion names)
          rw [events]
          exact List.append_nil _
        | passed outcome reports =>
          rw [Traced.bind_of_ok _ outcome]
          exact messageRun_of_siteRun root (.present assertion reports) second

namespace MessageRun

variable {run : Traced Bool} (h : MessageRun ctx d run)

include h

/-- There is a warning if the verdict is negative, and in no other case. -/
theorem warns_iff : (∃ e ∈ run.events, e.level = .warn) ↔ run.outcome = .ok false := by
  cases h with
  | fault outcome quiet =>
    rw [outcome]
    refine ⟨fun ⟨e, he, warn⟩ => ?_, fun h => nomatch h⟩
    exact absurd ((quiet e he).symm.trans warn) (by decide)
  | mismatch before outcome events quiet names =>
    refine ⟨fun _ => outcome, fun _ => ⟨_, events ▸ List.mem_append_right _ (.head _), ?_⟩⟩
    cases names with
    | assertion _ names => cases names <;> rfl
    | root _ _ names => cases names <;> rfl
  | passed before after outcome events first h second =>
    rw [outcome, events]
    refine ⟨fun ⟨e, he, warn⟩ => ?_, fun h => nomatch h⟩
    rcases List.mem_append.1 he with he | he
    · exact absurd ((first.level_of_mem he).symm.trans warn) (by decide)
    · exact absurd ((second.level_of_mem he).symm.trans warn) (by decide)

theorem mismatch_of_false (outcome : run.outcome = .ok false) : ∃ before e,
    run.events = before ++ [e] ∧ (∀ b ∈ before, b.level = .debug) ∧ Mismatch ctx d e := by
  cases h with
  | fault outcome' quiet => cases outcome.symm.trans outcome'
  | mismatch before _ events quiet names => exact ⟨before, _, events, quiet, names⟩
  | passed before after outcome' events first h second => cases outcome.symm.trans outcome'

theorem passed_of_true (outcome : run.outcome = .ok true) : ∃ before after signature,
    run.events = before ++ after ∧ AssertionPassed ctx d before ∧
      d.rootSignature = .ok (some signature) ∧ SitePassed ctx d .root signature after := by
  cases h with
  | fault outcome' quiet => cases outcome.symm.trans outcome'
  | mismatch before outcome' events quiet names => cases outcome.symm.trans outcome'
  | passed before after _ events first h second =>
    exact ⟨before, after, _, events, first, h, second⟩

end MessageRun

end Messages

/-! ### Signing -/

/-- The reports of signing that goes through, before the last one.  The form that is hashed is that
of the stamped template, and the form that is signed is that with the digest. -/
inductive SigningReports (ctx : Context) (d : Document) (id issueInstant : String)
    (after : Document) : List Event → Prop
  | intro {root : NodeId} {site : Site} {stamped digested : Document} {form digest : String}
      {target : NodeId} {method : SignatureMethod} {info : String} {value : Bytes}
      (found : signingSite ctx d = .ok (root, site))
      (stamp : stamp d root site id issueInstant = .ok stamped)
      (hashes : site.Hashes stamped form digest)
      (place : stamped.requiredChild site.reference ElementName.digestValue = .ok target)
      (filled : stamped.setText target digest = .ok digested)
      (signs : site.Signs digested method info)
      (signed : ctx.key.sign method (utf8 info) = .ok value)
      (sealed : digested.setText site.signatureValue (String.ofList (Base64.encode value)) =
        .ok after) :
      SigningReports ctx d id issueInstant after
        ((Traced.logIf ctx.debug (.preDigest .root form)).events ++ .producedDigest .root digest ::
          (Traced.logIf ctx.debug (.preSignature .root info)).events)

/-- How signing can end. -/
inductive SigningRun (ctx : Context) (d : Document) (id issueInstant : String) (run : Signing) :
    Prop
  | fault {e : Fault} (outcome : run.trace.outcome = .error e) (quiet : run.trace.Quiet)
  | signed (before : List Event) (outcome : run.trace.outcome = .ok ())
      (events : run.trace.events = before ++ [.signed id issueInstant])
      (quiet : ∀ b ∈ before, b.level = .debug)
      (reports : SigningReports ctx d id issueInstant run.document before)

namespace Site

variable {ctx : Context} {d : Document} {site : Site}

theorem quiet_produceDigest (ctx : Context) (d : Document) (site : Site) :
    (site.produceDigest ctx d).Quiet := by
  refine (quiet_computeDigest ctx d site).bind fun _ _ => (Traced.Quiet.lift _).bind fun _ _ =>
    (Traced.Quiet.logIf true rfl).bind fun _ _ => ?_
  exact .lift _

theorem quiet_produceValue (ctx : Context) (d : Document) (site : Site) :
    (site.produceValue ctx d).Quiet := by
  refine (quiet_signedInput ctx d site).bind fun _ _ => (Traced.Quiet.lift _).bind fun _ _ => ?_
  exact .lift _

theorem Hashes.events_produceDigest {form digest : String} {target : NodeId}
    (hashes : site.Hashes d form digest)
    (place : d.requiredChild site.reference ElementName.digestValue = .ok target) (ctx : Context) :
    (site.produceDigest ctx d).events =
      (Traced.logIf ctx.debug (.preDigest site.kind form)).events ++
        [.producedDigest site.kind digest] := by
  rw [produceDigest, hashes.computeDigest_eq, Traced.bind_of_ok _ rfl, place]
  rfl

theorem Signs.events_produceValue {method : SignatureMethod} {form : String} {value : Bytes}
    (signs : site.Signs d method form) (signed : ctx.key.sign method (utf8 form) = .ok value) :
    (site.produceValue ctx d).events =
      (Traced.logIf ctx.debug (.preSignature site.kind form)).events := by
  rw [produceValue, signs.signedInput_eq, Traced.bind_of_ok _ rfl]
  dsimp only
  rw [signed]
  exact List.append_nil _

end Site

theorem signingRun_sign (ctx : Context) (d : Document) (id issueInstant : String) :
    SigningRun ctx d id issueInstant (sign ctx d id issueInstant) := by
  have ends := ends_sign ctx d id issueInstant
  generalize sign ctx d id issueInstant = run at ends ⊢
  cases ends with
  | noSite => exact .fault rfl (.lift (.error _))
  | noStamp => exact .fault rfl (.lift (.error _))
  | @noDigest _ site stamped => exact .fault rfl (Site.quiet_produceDigest ctx stamped site)
  | @noValue _ site stamped digested =>
    exact .fault rfl (List.forall_mem_append.2 ⟨Site.quiet_produceDigest ctx stamped site,
      Site.quiet_produceValue ctx digested site⟩)
  | @signed root site stamped digested after found hstamp hdigest hvalue =>
    refine .signed _ rfl rfl (List.forall_mem_append.2 ⟨Site.quiet_produceDigest ctx stamped site,
      Site.quiet_produceValue ctx digested site⟩) ?_
    obtain ⟨digest, target, computed, place, filled⟩ := Site.produceDigest_eq_ok_iff.1 hdigest
    obtain ⟨method, info, value, input, signed, sealed⟩ := Site.produceValue_eq_ok_iff.1 hvalue
    obtain ⟨form, hashes⟩ := Site.hashes_of_computeDigest computed
    have signs := Site.signs_of_signedInput input
    obtain ⟨signature, -, -, located⟩ := signingSite_cases found
    have place := Document.requiredChild_eq_ok_iff.2 place
    dsimp only
    rw [hashes.events_produceDigest place ctx, signs.events_produceValue signed,
      Site.kind_of_locate located, List.append_assoc]
    exact .intro found hstamp hashes place filled signs signed sealed

namespace SigningRun

variable {ctx : Context} {d : Document} {id issueInstant : String} {run : Signing}
  (h : SigningRun ctx d id issueInstant run)

include h

theorem informs_iff : (∃ e ∈ run.trace.events, e.level = .info) ↔ run.trace.outcome = .ok () := by
  cases h with
  | fault outcome quiet =>
    rw [outcome]
    refine ⟨fun ⟨e, he, info⟩ => ?_, fun h => nomatch h⟩
    exact absurd ((quiet e he).symm.trans info) (by decide)
  | signed before outcome events quiet reports =>
    exact ⟨fun _ => outcome, fun _ => ⟨_, events ▸ List.mem_append_right _ (.head _), rfl⟩⟩

theorem signed_of_ok (outcome : run.trace.outcome = .ok ()) : ∃ before,
    run.trace.events = before ++ [.signed id issueInstant] ∧
      (∀ b ∈ before, b.level = .debug) ∧
      SigningReports ctx d id issueInstant run.document before := by
  cases h with
  | fault outcome' quiet => cases outcome.symm.trans outcome'
  | signed before _ events quiet reports => exact ⟨before, events, quiet, reports⟩

end SigningRun

/-! ### Reports of canonical forms -/

/-- One list of events is another with some more in between. -/
inductive Inserts (P : Event → Prop) : List Event → List Event → Prop
  | nil : Inserts P [] []
  | keep (e : Event) {xs ys : List Event} (h : Inserts P xs ys) : Inserts P (e :: xs) (e :: ys)
  | insert {e : Event} {xs ys : List Event} (new : P e) (h : Inserts P xs ys) :
      Inserts P xs (e :: ys)

namespace Inserts

variable {P : Event → Prop} {xs ys xs' ys' : List Event}

theorem refl : ∀ xs : List Event, Inserts P xs xs
  | [] => .nil
  | e :: xs => .keep e (refl xs)

theorem append (h : Inserts P xs ys) (h' : Inserts P xs' ys') :
    Inserts P (xs ++ xs') (ys ++ ys') := by
  induction h with
  | nil => exact h'
  | keep e _ ih => exact .keep e ih
  | insert new _ ih => exact .insert new ih

end Inserts

/-- Two computations have the same outcome, and one reports some more on the way. -/
structure Traced.Extends {α : Type} (P : Event → Prop) (x y : Traced α) : Prop where
  outcome : y.outcome = x.outcome
  events : Inserts P x.events y.events

namespace Traced.Extends

variable {α β : Type} {P : Event → Prop}

theorem refl (x : Traced α) : x.Extends P x := ⟨rfl, .refl _⟩

theorem logIf {e : Event} (new : P e) : (logIf false e).Extends P (logIf true e) :=
  ⟨rfl, .insert new .nil⟩

theorem bind {x y : Traced α} {f g : α → Traced β} (h : x.Extends P y)
    (next : ∀ a, x.outcome = .ok a → (f a).Extends P (g a)) : (x >>= f).Extends P (y >>= g) := by
  cases out : x.outcome with
  | error e =>
    rw [bind_of_error f out, bind_of_error g (h.outcome.trans out)]
    exact ⟨rfl, h.events⟩
  | ok a =>
    rw [bind_of_ok f out, bind_of_ok g (h.outcome.trans out)]
    exact ⟨(next a out).outcome, h.events.append (next a out).events⟩

end Traced.Extends

/-- An event that reports the canonical form that is hashed, or signed, at a site of a document. -/
inductive ReportsForm (hashed signed : Site → Document → Prop) : Event → Prop
  | digest {site : Site} {d : Document} {form digest : String} (here : hashed site d)
      (hashes : site.Hashes d form digest) : ReportsForm hashed signed (.preDigest site.kind form)
  | value {site : Site} {d : Document} {method : SignatureMethod} {form : String}
      (here : signed site d) (signs : site.Signs d method form) :
      ReportsForm hashed signed (.preSignature site.kind form)

section Forms

variable {hashed signed : Site → Document → Prop} (key : Key) {d : Document} {site : Site}

namespace Site

theorem extends_computeDigest (here : hashed site d) :
    (site.computeDigest ⟨key, false⟩ d).Extends (ReportsForm hashed signed)
      (site.computeDigest ⟨key, true⟩ d) := by
  refine .bind (.refl _) fun _ linked => .bind (.refl _) fun t transforms =>
    .bind (.refl _) fun uri algorithm => .bind (.refl _) fun method known =>
    .bind (.refl _) fun form written => .bind (.logIf ?_) fun _ _ => .refl _
  obtain rfl := DigestMethod.ofUri_eq_ok_iff.1 known
  exact .digest here ⟨linked, transforms, algorithm, written⟩

theorem extends_signedInput (here : signed site d) :
    (site.signedInput ⟨key, false⟩ d).Extends (ReportsForm hashed signed)
      (site.signedInput ⟨key, true⟩ d) := by
  refine .bind (.refl _) fun uri algorithm => .bind (.refl _) fun method known =>
    .bind (.refl _) fun form written => .bind (.logIf ?_) fun _ _ => .refl _
  obtain rfl := SignatureMethod.ofUri_eq_ok_iff.1 known
  exact .value here ⟨algorithm, written⟩

end Site

theorem extends_verifySite {kind : SiteKind} {signature : NodeId}
    (here : ∀ site, Site.locate d signature kind = .ok site → hashed site d ∧ signed site d) :
    (verifySite ⟨key, false⟩ d kind signature).Extends (ReportsForm hashed signed)
      (verifySite ⟨key, true⟩ d kind signature) := by
  refine .bind (.refl _) fun site located => .bind (.refl _) fun _ _ => .bind ?_ fun same _ => ?_
  · exact .bind (Site.extends_computeDigest key (here site located).1) fun _ _ => .refl _
  · cases same with
    | false =>
      rw [if_neg Bool.false_ne_true, if_neg Bool.false_ne_true]
      exact .refl _
    | true =>
      rw [if_pos rfl, if_pos rfl]
      exact .bind (Site.extends_signedInput key (here site located).2) fun _ _ => .refl _

end Forms

/-- A site of a document at which it is verified. -/
inductive Xml.Document.HasSite (d : Document) (site : Site) : Prop
  | root {signature : NodeId} (h : d.rootSignature = .ok (some signature))
      (located : Site.locate d signature .root = .ok site)
  | assertion {signature : NodeId} (h : d.assertionSignature? = some signature)
      (located : Site.locate d signature .assertion = .ok site)

/-- Asking for canonical forms does not change a verdict. -/
theorem extends_verify (key : Key) (d : Document) :
    (verify ⟨key, false⟩ d).Extends
      (ReportsForm (fun site d' => d.HasSite site ∧ d' = d) fun site d' => d.HasSite site ∧ d' = d)
      (verify ⟨key, true⟩ d) := by
  refine .bind (.refl _) fun found root => ?_
  cases found with
  | none => exact .refl _
  | some signature =>
    refine .bind ?_ fun same _ => ?_
    · rw [verifyAssertion, verifyAssertion]
      cases assertion : d.assertionSignature? with
      | none => exact .refl (pure true)
      | some signature' =>
        refine extends_verifySite key fun site located => ?_
        have has : d.HasSite site := .assertion assertion located
        exact ⟨⟨has, rfl⟩, has, rfl⟩
    · cases same with
      | false =>
        rw [if_neg Bool.false_ne_true, if_neg Bool.false_ne_true]
        exact .refl _
      | true =>
        rw [if_pos rfl, if_pos rfl]
        refine extends_verifySite key fun site located => ?_
        have has : d.HasSite site := .root root located
        exact ⟨⟨has, rfl⟩, has, rfl⟩

/-- A template with its stamp. -/
def Stamped (ctx : Context) (d : Document) (id issueInstant : String) (site : Site)
    (stamped : Document) : Prop :=
  ∃ root, signingSite ctx d = .ok (root, site) ∧ stamp d root site id issueInstant = .ok stamped

/-- A template with its stamp and its digest. -/
def Digested (ctx : Context) (d : Document) (id issueInstant : String) (site : Site)
    (digested : Document) : Prop :=
  ∃ stamped, Stamped ctx d id issueInstant site stamped ∧
    (site.produceDigest ctx stamped).outcome = .ok digested

/-- Asking for canonical forms does not change what is signed, nor what is left of a template if
signing fails. -/
theorem extends_sign (key : Key) (d : Document) (id issueInstant : String) :
    (sign ⟨key, true⟩ d id issueInstant).document = (sign ⟨key, false⟩ d id issueInstant).document ∧
    (sign ⟨key, false⟩ d id issueInstant).trace.Extends
      (ReportsForm (Stamped ⟨key, false⟩ d id issueInstant)
        (Digested ⟨key, false⟩ d id issueInstant))
      (sign ⟨key, true⟩ d id issueInstant).trace := by
  have same : signingSite ⟨key, true⟩ d = signingSite ⟨key, false⟩ d := rfl
  cases found : signingSite ⟨key, false⟩ d with
  | error e =>
    simp only [sign, same, found]
    exact ⟨trivial, .refl _⟩
  | ok pair =>
  obtain ⟨root, site⟩ := pair
  cases hstamp : stamp d root site id issueInstant with
  | error e =>
    simp only [sign, same, found, hstamp]
    exact ⟨trivial, .refl _⟩
  | ok stamped =>
  have here : Stamped ⟨key, false⟩ d id issueInstant site stamped := ⟨root, found, hstamp⟩
  have digests : (site.produceDigest ⟨key, false⟩ stamped).Extends
      (ReportsForm (Stamped ⟨key, false⟩ d id issueInstant)
        (Digested ⟨key, false⟩ d id issueInstant)) (site.produceDigest ⟨key, true⟩ stamped) :=
    .bind (Site.extends_computeDigest key here) fun _ _ => .refl _
  cases hdigest : (site.produceDigest ⟨key, false⟩ stamped).outcome with
  | error e =>
    simp only [sign, same, found, hstamp, hdigest, digests.outcome]
    exact ⟨trivial, rfl, digests.events⟩
  | ok digested =>
  have here : Digested ⟨key, false⟩ d id issueInstant site digested := ⟨stamped, here, hdigest⟩
  have values : (site.produceValue ⟨key, false⟩ digested).Extends
      (ReportsForm (Stamped ⟨key, false⟩ d id issueInstant)
        (Digested ⟨key, false⟩ d id issueInstant)) (site.produceValue ⟨key, true⟩ digested) :=
    .bind (Site.extends_signedInput key here) fun _ _ => .refl _
  have events := digests.events.append values.events
  cases hvalue : (site.produceValue ⟨key, false⟩ digested).outcome with
  | error e =>
    simp only [sign, same, found, hstamp, hdigest, digests.outcome, hvalue, values.outcome]
    exact ⟨trivial, rfl, events⟩
  | ok after =>
    simp only [sign, same, found, hstamp, hdigest, digests.outcome, hvalue, values.outcome]
    exact ⟨trivial, rfl, events.append (.refl _)⟩

/-! ### The whole -/

end SamlSeal
