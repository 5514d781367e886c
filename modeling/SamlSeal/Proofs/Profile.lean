import SamlSeal.Proofs.Crypto
import SamlSeal.Proofs.TextBytes
import SamlSeal.Proofs.View
import SamlSeal.Proofs.Words
import SamlSeal.Signature.Verify

/-!
# The signature profile

What a signed message has to look like, said without saying how it is checked.

* `Document.FirstChild`, `Document.Lists`, `Document.HasAttribute`: what a document says at a node,
* `DigestConforms`: the reference of a signature names the signed element, asks for the two
  transforms of the profile, and holds the digest of the signed element,
* `ValueConforms`: the signature value is a valid signature of the signed information,
* `MessageConforms`: both hold for the signature of the message, and for that of its assertion if
  there is one.

`verify` accepts a message exactly if it conforms.
-/

namespace SamlSeal

open Xml

/-! ### Outcomes -/

theorem bind_eq_ok_iff {α β : Type} {x : Except Fault α} {f : α → Except Fault β} {b : β} :
    (x >>= f) = .ok b ↔ ∃ a, x = .ok a ∧ f a = .ok b := by
  cases x <;> simp [bind, Except.bind]

namespace Traced

variable {α β : Type}

theorem outcome_bind (x : Traced α) (f : α → Traced β) :
    (x >>= f).outcome = x.outcome >>= fun a => (f a).outcome := by
  cases h : x.outcome with
  | ok a => rw [bind_of_ok f h]; rfl
  | error e => rw [bind_of_error f h]; rfl

/-- A computation goes through if all of its steps do. -/
theorem outcome_bind_eq_ok_iff {x : Traced α} {f : α → Traced β} {b : β} :
    (x >>= f).outcome = .ok b ↔ ∃ a, x.outcome = .ok a ∧ (f a).outcome = .ok b := by
  rw [outcome_bind, bind_eq_ok_iff]

@[simp] theorem outcome_liftM (x : Except Fault α) : (liftM x : Traced α).outcome = x := rfl

@[simp] theorem outcome_logIf (c : Bool) (e : Event) : (logIf c e).outcome = .ok () := by
  cases c <;> rfl

end Traced

namespace Xml.Document

variable {d : Document}

/-! ### What a document says at a node -/

/-- A node is an element of the given namespace and local name. -/
def Named (d : Document) (uri name : String) (c : NodeId) : Prop :=
  ∃ e, d.element? c = some e ∧ e.name.uri = some uri ∧ e.name.localName = name

/-- A node is an element of the given local name, in whatever namespace. -/
def LocallyNamed (d : Document) (name : String) (c : NodeId) : Prop :=
  ∃ e, d.element? c = some e ∧ e.name.localName = name

/-- A node is the first among the children of another one that has a property. -/
def FirstChild (d : Document) (p : NodeId) (P : NodeId → Prop) (c : NodeId) : Prop :=
  ∃ before after, d.children p = before ++ c :: after ∧ P c ∧ ∀ b ∈ before, ¬ P b

/-- A list holds the children of a node that have a property, in order. -/
def Lists (d : Document) (p : NodeId) (P : NodeId → Prop) (cs : List NodeId) : Prop :=
  cs.Sublist (d.children p) ∧ ∀ c ∈ d.children p, c ∈ cs ↔ P c

/-- The first attribute of a node with the given name and no namespace has the given value. -/
def HasAttribute (d : Document) (id : NodeId) (name value : String) : Prop :=
  ∃ e before a after, d.element? id = some e ∧ e.attributes = before ++ a :: after ∧
    a.name.uri = none ∧ a.name.localName = name ∧ a.value = value ∧
    ∀ b ∈ before, b.name.uri = none → b.name.localName ≠ name

theorem FirstChild.mem {p c : NodeId} {P : NodeId → Prop} (h : d.FirstChild p P c) :
    c ∈ d.children p ∧ P c := by
  obtain ⟨before, after, eq, hc, -⟩ := h
  exact ⟨by rw [eq]; simp, hc⟩

theorem FirstChild.unique {p a b : NodeId} {P : NodeId → Prop} (ha : d.FirstChild p P a)
    (hb : d.FirstChild p P b) : a = b := by
  obtain ⟨before, after, eq, hPa, first⟩ := ha
  obtain ⟨before', after', eq', hPb, first'⟩ := hb
  rw [eq] at eq'
  obtain ⟨mid, rfl, h⟩ | ⟨mid, rfl, h⟩ := List.append_eq_append_iff.1 eq'
  · cases mid with
    | nil => exact (List.cons.inj h).1
    | cons x mid => exact absurd ((List.cons.inj h).1 ▸ hPa) (first' x (by simp))
  · cases mid with
    | nil => exact (List.cons.inj h).1.symm
    | cons x mid => exact absurd ((List.cons.inj h).1 ▸ hPb) (first x (by simp))

theorem Named.element {uri name : String} {c : NodeId} (h : d.Named uri name c) :
    ∃ e, d.element? c = some e := by
  obtain ⟨e, he, -⟩ := h
  exact ⟨e, he⟩

/-- Nodes with different local names are different. -/
theorem Named.ne {uri uri' name name' : String} {a b : NodeId} (ha : d.Named uri name a)
    (hb : d.Named uri' name' b) (ne : name ≠ name') : a ≠ b := by
  rintro rfl
  obtain ⟨e, he, -, hn⟩ := ha
  obtain ⟨e', he', -, hn'⟩ := hb
  obtain rfl := Option.some.inj (he.symm.trans he')
  exact ne (hn.symm.trans hn')

/-- The prefixes that a transform wants to be taken along: those that are listed in its first child
named for them, if it has such a child and that has a list. -/
inductive PrefixList (d : Document) (transform : NodeId) : List String → Prop
  | absent (h : ∀ c ∈ d.children transform, ¬ d.LocallyNamed ElementName.inclusiveNamespaces c) :
    PrefixList d transform []
  | listed {node : NodeId} {value : String} {ps : List String}
    (first : d.FirstChild transform (d.LocallyNamed ElementName.inclusiveNamespaces) node)
    (list : d.HasAttribute node AttributeName.prefixList value)
    (words : Text.HoldsWords (ps.map String.toList) value.toList) : PrefixList d transform ps
  | unlisted {node : NodeId}
    (first : d.FirstChild transform (d.LocallyNamed ElementName.inclusiveNamespaces) node)
    (none : ∀ value, ¬ d.HasAttribute node AttributeName.prefixList value) :
    PrefixList d transform []

/-- The text directly inside a node, white space taken out, is base64 for some bytes. -/
def HoldsBase64 (d : Document) (id : NodeId) (bytes : Bytes) : Prop :=
  (d.text id).toList.filter (fun c => !isSpace c) = Base64.encode bytes

theorem isNamed_iff {uri name : String} (huri : uri ≠ "") {c : NodeId} :
    d.isNamed uri name c = true ↔ d.Named uri name c := by
  rw [isNamed, Named]
  cases d.element? c with
  | none => simp
  | some e =>
    cases h : e.name.uri with
    | none => simp [h, Ne.symm huri]
    | some u => simp [h, and_comm]

/-- Looking for the first child that passes a test finds the first child with the property that
the test is for. -/
theorem find?_children_eq_some_iff {test : NodeId → Bool} {P : NodeId → Prop}
    (h : ∀ c, test c = true ↔ P c) {p c : NodeId} :
    (d.children p).find? test = some c ↔ d.FirstChild p P c := by
  rw [List.find?_eq_some_iff_append, FirstChild, h]
  constructor
  · rintro ⟨hc, before, after, eq, hb⟩
    refine ⟨before, after, eq, hc, fun b mem hP => ?_⟩
    have := hb b mem
    rw [(h b).2 hP] at this
    cases this
  · rintro ⟨before, after, eq, hc, hb⟩
    refine ⟨hc, before, after, eq, fun b mem => ?_⟩
    simpa using mt (h b).1 (hb b mem)

theorem find?_children_eq_none_iff {test : NodeId → Bool} {P : NodeId → Prop}
    (h : ∀ c, test c = true ↔ P c) {p : NodeId} :
    (d.children p).find? test = none ↔ ∀ c ∈ d.children p, ¬ P c := by
  simp only [List.find?_eq_none, h]

theorem childElement?_eq_some_iff {uri name : String} (huri : uri ≠ "") {p c : NodeId} :
    d.childElement? p uri name = some c ↔ d.FirstChild p (d.Named uri name) c :=
  find?_children_eq_some_iff fun _ => isNamed_iff huri

theorem rootElement?_eq_some_iff {r : NodeId} :
    d.rootElement? = some r ↔ d.FirstChild root (fun c => ∃ e, d.element? c = some e) r :=
  find?_children_eq_some_iff fun _ => isElement_iff

theorem locallyNamed_iff {name : String} {c : NodeId} :
    (match d.element? c with
      | some e => e.name.localName == name
      | none => false) = true ↔ d.LocallyNamed name c := by
  rw [LocallyNamed]
  cases d.element? c <;> simp

/-- The only list of the children with a property is found by filtering. -/
theorem filter_eq_iff {l cs : List NodeId} {test : NodeId → Bool} {P : NodeId → Prop}
    (h : ∀ c, test c = true ↔ P c) (nodup : l.Nodup) :
    l.filter test = cs ↔ cs.Sublist l ∧ ∀ c ∈ l, c ∈ cs ↔ P c := by
  constructor
  · rintro rfl
    refine ⟨List.filter_sublist, fun c hc => ?_⟩
    simp [List.mem_filter, hc, h]
  · rintro ⟨sub, mem⟩
    induction l generalizing cs with
    | nil => simp [List.sublist_nil.1 sub]
    | cons a l ih =>
      obtain ⟨fresh, nodup⟩ := List.nodup_cons.1 nodup
      have head := mem a List.mem_cons_self
      cases sub with
      | cons _ sub =>
        -- `a` is not listed, so it has not the property
        have notMem : a ∉ cs := fun ha => fresh (sub.subset ha)
        have failed : ¬ test a = true := fun ha => notMem (head.2 ((h a).1 ha))
        rw [List.filter_cons_of_neg failed]
        exact ih nodup sub fun c hc => mem c (List.mem_cons_of_mem _ hc)
      | @cons_cons cs _ _ sub =>
        have passed : test a = true := (h a).2 (head.1 List.mem_cons_self)
        rw [List.filter_cons_of_pos passed]
        refine congrArg (a :: ·) (ih nodup sub fun c hc => ?_)
        have ne : c ≠ a := fun eq => fresh (eq ▸ hc)
        rw [← mem c (List.mem_cons_of_mem _ hc), List.mem_cons, or_iff_right ne]

theorem childElements_eq_iff (hd : d.Linked) {uri name : String} (huri : uri ≠ "") {p : NodeId}
    {cs : List NodeId} :
    d.childElements p uri name = cs ↔ d.Lists p (d.Named uri name) cs :=
  filter_eq_iff (fun _ => isNamed_iff huri) (hd.nodup_children p)

theorem attribute?_eq_some_iff {id : NodeId} {name value : String} :
    d.attribute? id name = some value ↔ d.HasAttribute id name value := by
  have plain : ∀ a : Attribute,
      a.isPlain name = true ↔ a.name.uri = none ∧ a.name.localName = name := by
    intro a
    simp [Attribute.isPlain]
  rw [attribute?, HasAttribute]
  cases d.element? id with
  | none => simp
  | some e =>
    rw [Option.bind_some, Option.map_eq_some_iff]
    constructor
    · rintro ⟨a, ha, hv⟩
      obtain ⟨hp, before, after, eq, hb⟩ := List.find?_eq_some_iff_append.1 ha
      obtain ⟨hu, hn⟩ := (plain a).1 hp
      refine ⟨e, before, a, after, rfl, eq, hu, hn, hv, fun b mem hbu hbn => ?_⟩
      have := hb b mem
      rw [(plain b).2 ⟨hbu, hbn⟩] at this
      cases this
    · rintro ⟨e', before, a, after, he, eq, hu, hn, hv, hb⟩
      obtain rfl := Option.some.inj he
      refine ⟨a, List.find?_eq_some_iff_append.2 ⟨(plain a).2 ⟨hu, hn⟩, before, after, eq, ?_⟩, hv⟩
      intro b mem
      have : ¬ b.isPlain name = true := fun hp => hb b mem ((plain b).1 hp).1 ((plain b).1 hp).2
      simpa using this

theorem attribute?_eq_none_iff {id : NodeId} {name : String} :
    d.attribute? id name = none ↔ ∀ value, ¬ d.HasAttribute id name value := by
  rw [Option.eq_none_iff_forall_ne_some]
  simp only [ne_eq, attribute?_eq_some_iff]

theorem requiredChild_eq_ok_iff {id c : NodeId} {name : String} :
    d.requiredChild id name = .ok c ↔ d.FirstChild id (d.Named Namespace.dsig name) c := by
  rw [← childElement?_eq_some_iff (by decide), requiredChild]
  cases d.childElement? id Namespace.dsig name <;> simp

theorem algorithmOf_eq_ok_iff {id : NodeId} {name uri : String} :
    d.algorithmOf id name = .ok uri ↔
      ∃ c, d.FirstChild id (d.Named Namespace.dsig name) c ∧
        d.HasAttribute c AttributeName.algorithm uri := by
  rw [algorithmOf, bind_eq_ok_iff]
  simp only [requiredChild_eq_ok_iff, ← attribute?_eq_some_iff]
  refine exists_congr fun c => and_congr_right fun _ => ?_
  cases d.attribute? c AttributeName.algorithm <;> simp

end Xml.Document

/-! ### References -/

namespace Reference

variable {d : Document}

theorem checkLinkage_eq_ok_iff {site : Site} : checkLinkage d site = .ok () ↔
    ∃ id, id ≠ "" ∧ d.HasAttribute site.parent AttributeName.id id ∧
      d.HasAttribute site.reference AttributeName.uri ("#" ++ id) := by
  simp only [← Document.attribute?_eq_some_iff, checkLinkage]
  have sharp : ∀ id : String, "#" ++ id ≠ "" := by
    intro id h
    have := congrArg String.toList h
    simp at this
  constructor
  · intro h
    split at h
    · cases h
    · next ok =>
      obtain ⟨hid, huri⟩ := not_or.1 ok
      cases hi : d.attribute? site.parent AttributeName.id with
      | none => rw [hi] at hid; exact absurd rfl hid
      | some id =>
        rw [hi] at hid huri
        refine ⟨id, hid, rfl, ?_⟩
        cases hu : d.attribute? site.reference AttributeName.uri with
        | none => rw [hu] at huri; exact absurd (Ne.symm (sharp id)) huri
        | some uri => rw [hu] at huri; exact congrArg some (Classical.not_not.1 huri)
  · rintro ⟨id, hid, hi, hu⟩
    rw [hi, hu]
    simp [hid]

theorem inclusive_eq_iff {transform : NodeId} {mode : Mode} {ps : List String} :
    (Transforms.mk mode (prefixes d transform)).inclusive = ps ↔ d.PrefixList transform ps := by
  have named : ∀ c, (match d.element? c with
      | some e => e.name.localName == ElementName.inclusiveNamespaces
      | none => false) = true ↔ d.LocallyNamed ElementName.inclusiveNamespaces c :=
    fun _ => Document.locallyNamed_iff
  have first_iff {c : NodeId} : d.childNamed? transform ElementName.inclusiveNamespaces = some c ↔
      d.FirstChild transform (d.LocallyNamed ElementName.inclusiveNamespaces) c :=
    Document.find?_children_eq_some_iff named
  have none_iff : d.childNamed? transform ElementName.inclusiveNamespaces = none ↔
      ∀ c ∈ d.children transform, ¬ d.LocallyNamed ElementName.inclusiveNamespaces c :=
    Document.find?_children_eq_none_iff named
  have words_iff {value : String} {ps : List String} :
      (Text.words value.toList).map String.ofList = ps ↔
        Text.HoldsWords (ps.map String.toList) value.toList := by
    rw [← Text.words_eq_iff]
    constructor
    · rintro rfl
      simp
    · intro words
      rw [words]
      simp
  rw [Transforms.inclusive, prefixes]
  constructor
  · rintro rfl
    cases hc : d.childNamed? transform ElementName.inclusiveNamespaces with
    | none => exact .absent (none_iff.1 hc)
    | some c =>
      rw [Option.map_some]
      cases ha : d.attribute? c AttributeName.prefixList with
      | none => exact .unlisted (first_iff.1 hc) (Document.attribute?_eq_none_iff.1 ha)
      | some value =>
        exact .listed (first_iff.1 hc) (Document.attribute?_eq_some_iff.1 ha) (words_iff.1 rfl)
  · intro h
    cases h with
    | absent h => rw [none_iff.2 h]; rfl
    | listed first list words =>
      rw [first_iff.2 first, Option.map_some, Document.attribute?_eq_some_iff.2 list]
      exact words_iff.2 words
    | unlisted first none =>
      rw [first_iff.2 first, Option.map_some, Document.attribute?_eq_none_iff.2 none]
      rfl

theorem transformAlgorithm_eq_ok_iff {transform : NodeId} {uri : String} :
    transformAlgorithm d transform = .ok uri ↔
      d.HasAttribute transform AttributeName.algorithm uri := by
  rw [← Document.attribute?_eq_some_iff, transformAlgorithm]
  cases d.attribute? transform AttributeName.algorithm <;> simp

theorem transformPair_eq_ok_iff (hd : d.Linked) {reference first second : NodeId} :
    transformPair d reference = .ok (first, second) ↔
      ∃ list, d.FirstChild reference (d.Named Namespace.dsig ElementName.transforms) list ∧
        d.Lists list (d.Named Namespace.dsig ElementName.transform) [first, second] := by
  have dsig : Namespace.dsig ≠ "" := by decide
  simp only [← Document.childElement?_eq_some_iff dsig, ← Document.childElements_eq_iff hd dsig,
    transformPair]
  cases d.childElement? reference Namespace.dsig ElementName.transforms with
  | none => simp
  | some list =>
    simp only [Option.some.injEq, exists_eq_left']
    split
    · next a b h => simp [h]
    · next other =>
      constructor
      · intro h
        cases h
      · intro h
        exact absurd h (other first second)

/-- The transforms of a reference are those of the profile. -/
theorem transforms_eq_ok_iff (hd : d.Linked) {reference : NodeId} {t : Transforms} :
    transforms d reference = .ok t ↔
      ∃ list first second,
        d.FirstChild reference (d.Named Namespace.dsig ElementName.transforms) list ∧
        d.Lists list (d.Named Namespace.dsig ElementName.transform) [first, second] ∧
        d.HasAttribute first AttributeName.algorithm Algorithm.enveloped ∧
        d.HasAttribute second AttributeName.algorithm t.mode.uri ∧
        t.prefixes = prefixes d second := by
  rw [transforms, bind_eq_ok_iff]
  constructor
  · rintro ⟨⟨first, second⟩, hpair, h⟩
    obtain ⟨list, hlist, hpair⟩ := (transformPair_eq_ok_iff hd).1 hpair
    obtain ⟨uri, hu, h⟩ := bind_eq_ok_iff.1 h
    split at h
    · cases h
    · next eq =>
      rw [Classical.not_not.1 eq] at hu
      obtain ⟨uri', hu', h⟩ := bind_eq_ok_iff.1 h
      split at h
      · next mode hm =>
        obtain rfl : (⟨mode, prefixes d second⟩ : Transforms) = t := by injection h
        rw [transformAlgorithm_eq_ok_iff, Mode.ofUri?_eq_some_iff.1 hm] at hu'
        exact ⟨list, first, second, hlist, hpair, transformAlgorithm_eq_ok_iff.1 hu, hu', rfl⟩
      · cases h
  · rintro ⟨list, first, second, hlist, hpair, henv, hmode, hprefixes⟩
    refine ⟨(first, second), (transformPair_eq_ok_iff hd).2 ⟨list, hlist, hpair⟩, ?_⟩
    refine bind_eq_ok_iff.2 ⟨_, transformAlgorithm_eq_ok_iff.2 henv, ?_⟩
    rw [if_neg (not_not_intro rfl)]
    refine bind_eq_ok_iff.2 ⟨_, transformAlgorithm_eq_ok_iff.2 hmode, ?_⟩
    rw [Mode.ofUri?_eq_some_iff.2 rfl, ← hprefixes]

end Reference

/-! ### The profile -/

/-- The reference of a signature links it to the signed element, asks for the two transforms of the
profile, and holds the digest of the signed element without the signature. -/
inductive DigestConforms (d : Document) (parent signature reference : NodeId) : Prop
  | intro {id form : String} {list first second methodNode valueNode : NodeId} {mode : Mode}
    {prefixes : List String} {method : DigestMethod}
    (nonempty : id ≠ "")
    (identified : d.HasAttribute parent AttributeName.id id)
    (linked : d.HasAttribute reference AttributeName.uri ("#" ++ id))
    (transforms : d.FirstChild reference (d.Named Namespace.dsig ElementName.transforms) list)
    (pair : d.Lists list (d.Named Namespace.dsig ElementName.transform) [first, second])
    (enveloped : d.HasAttribute first AttributeName.algorithm Algorithm.enveloped)
    (canonical : d.HasAttribute second AttributeName.algorithm mode.uri)
    (taken : d.PrefixList second prefixes)
    (digestMethod :
      d.FirstChild reference (d.Named Namespace.dsig ElementName.digestMethod) methodNode)
    (hash : d.HasAttribute methodNode AttributeName.algorithm method.uri)
    (digestValue :
      d.FirstChild reference (d.Named Namespace.dsig ElementName.digestValue) valueNode)
    (written : d.canonical parent (some signature) mode.keepsComments prefixes = .ok form)
    (digest : d.HoldsBase64 valueNode (method.hash (utf8 form)))

/-- The signature value is a valid signature of the signed information in canonical form. -/
inductive ValueConforms (key : Key) (d : Document) (signedInfo signatureValue : NodeId) : Prop
  | intro {modeNode methodNode : NodeId} {mode : Mode} {method : SignatureMethod} {form : String}
    {value : Bytes}
    (canonicalizationMethod : d.FirstChild signedInfo
      (d.Named Namespace.dsig ElementName.canonicalizationMethod) modeNode)
    (canonical : d.HasAttribute modeNode AttributeName.algorithm mode.uri)
    (signatureMethod : d.FirstChild signedInfo
      (d.Named Namespace.dsig ElementName.signatureMethod) methodNode)
    (rsa : d.HasAttribute methodNode AttributeName.algorithm method.uri)
    (written : d.canonical signedInfo none mode.keepsComments [] = .ok form)
    (signed : d.HoldsBase64 signatureValue value)
    (valid : key.toPublic.Accepts method (utf8 form) value)

/-- A signature of `parent` has its parts, and digest and value are right. -/
inductive SignatureConforms (key : Key) (d : Document) (parent signature : NodeId) : Prop
  | intro {info reference value : NodeId}
    (signedInfo : d.FirstChild signature (d.Named Namespace.dsig ElementName.signedInfo) info)
    (only : d.Lists info (d.Named Namespace.dsig ElementName.reference) [reference])
    (signatureValue :
      d.FirstChild signature (d.Named Namespace.dsig ElementName.signatureValue) value)
    (digest : DigestConforms d parent signature reference)
    (signed : ValueConforms key d info value)

/-- The document element is signed as the profile asks, and so is its first assertion if it holds a
signature. -/
inductive MessageConforms (key : Key) (d : Document) : Prop
  | intro {root signature : NodeId}
    (element : d.FirstChild Document.root (fun c => ∃ e, d.element? c = some e) root)
    (signed : d.FirstChild root (d.Named Namespace.dsig ElementName.signature) signature)
    (assertion : ∀ a s,
      d.FirstChild root (d.Named Namespace.samlAssertion ElementName.assertion) a →
      d.FirstChild a (d.Named Namespace.dsig ElementName.signature) s →
      SignatureConforms key d a s)
    (message : SignatureConforms key d root signature)

/-! ### What the checks accept -/

section Checks

variable {ctx : Context} {d : Document}

namespace Site

theorem onlyReference_eq_ok_iff (hd : d.Linked) {info r : NodeId} : onlyReference d info = .ok r ↔
    d.Lists info (d.Named Namespace.dsig ElementName.reference) [r] := by
  rw [← Document.childElements_eq_iff hd (by decide), onlyReference]
  split
  · next h => simp [h]
  · next r' h => simp [h]
  · next rs hnil hone =>
    constructor
    · intro h
      cases h
    · intro h
      exact absurd h (hone r)

/-- Locating a signature finds its parts, and the element that holds it. -/
theorem locate_eq_ok_iff (hd : d.Linked) {signature parent : NodeId} {kind : SiteKind}
    {e : Element} (he : d.element? parent = some e) (hs : signature ∈ d.children parent)
    {site : Site} : locate d signature kind = .ok site ↔
      site.kind = kind ∧ site.signature = signature ∧ site.parent = parent ∧
      d.FirstChild signature (d.Named Namespace.dsig ElementName.signedInfo) site.signedInfo ∧
      d.Lists site.signedInfo (d.Named Namespace.dsig ElementName.reference) [site.reference] ∧
      d.FirstChild signature (d.Named Namespace.dsig ElementName.signatureValue)
        site.signatureValue := by
  have held : holder d signature = .ok parent := by
    rw [holder, hd.mem_children_iff.1 hs]
    simp [Document.isElement, he]
  simp only [locate, bind_eq_ok_iff, held, Document.requiredChild_eq_ok_iff,
    onlyReference_eq_ok_iff hd]
  constructor
  · rintro ⟨p, hp, info, hinfo, r, hr, v, hv, h⟩
    obtain rfl : parent = p := by injection hp
    obtain rfl : (⟨kind, signature, parent, info, r, v⟩ : Site) = site := by injection h
    exact ⟨rfl, rfl, rfl, hinfo, hr, hv⟩
  · rintro ⟨rfl, rfl, rfl, hinfo, hr, hv⟩
    exact ⟨_, rfl, _, hinfo, _, hr, _, hv, rfl⟩

/-- The digest of a signed element can be computed if the reference follows the profile. -/
theorem computeDigest_eq_ok_iff {site : Site} {digest : String} :
    (site.computeDigest ctx d).outcome = .ok digest ↔
      Reference.checkLinkage d site = .ok () ∧
      ∃ t, Reference.transforms d site.reference = .ok t ∧
      ∃ method : DigestMethod,
        d.algorithmOf site.reference ElementName.digestMethod = .ok method.uri ∧
      ∃ form, site.signedForm d t = .ok form ∧
        digest = String.ofList (Base64.encode (method.hash (utf8 form))) := by
  simp only [computeDigest, Traced.outcome_bind_eq_ok_iff, Traced.outcome_liftM,
    Traced.outcome_logIf, Traced.outcome_pure, Except.ok.injEq]
  constructor
  · rintro ⟨⟨⟩, link, t, ht, uri, huri, method, hm, form, hform, -, -, h⟩
    rw [DigestMethod.ofUri_eq_ok_iff.1 hm] at huri
    exact ⟨link, t, ht, method, huri, form, hform, h.symm⟩
  · rintro ⟨link, t, ht, method, huri, form, hform, rfl⟩
    exact ⟨(), link, t, ht, _, huri, method, DigestMethod.ofUri_eq_ok_iff.2 rfl, form, hform,
      (), trivial, rfl⟩

theorem verifyDigest_eq_true_iff {site : Site} :
    (site.verifyDigest ctx d).outcome = .ok true ↔
      ∃ digest, (site.computeDigest ctx d).outcome = .ok digest ∧
      ∃ value, d.requiredChild site.reference ElementName.digestValue = .ok value ∧
        digest = String.ofList (d.unwrapped value) := by
  simp only [verifyDigest, Traced.outcome_bind_eq_ok_iff, Traced.outcome_liftM,
    Traced.outcome_logIf, Traced.outcome_log, Traced.outcome_pure, Except.ok.injEq, beq_iff_eq]
  constructor
  · rintro ⟨digest, hd, value, hv, -, -, -, -, h⟩
    exact ⟨digest, hd, value, hv, h⟩
  · rintro ⟨digest, hd, value, hv, h⟩
    exact ⟨digest, hd, value, hv, (), trivial, (), trivial, h⟩

theorem signedInput_eq_ok_iff {site : Site} {method : SignatureMethod} {form : String} :
    (site.signedInput ctx d).outcome = .ok (method, form) ↔
      d.algorithmOf site.signedInfo ElementName.signatureMethod = .ok method.uri ∧
      signedInfoForm d site.signedInfo = .ok form := by
  simp only [signedInput, Traced.outcome_bind_eq_ok_iff, Traced.outcome_liftM,
    Traced.outcome_logIf, Traced.outcome_pure, Except.ok.injEq, Prod.mk.injEq]
  constructor
  · rintro ⟨uri, huri, m, hm, f, hf, -, -, rfl, rfl⟩
    rw [SignatureMethod.ofUri_eq_ok_iff.1 hm] at huri
    exact ⟨huri, hf⟩
  · rintro ⟨huri, hf⟩
    exact ⟨_, huri, method, SignatureMethod.ofUri_eq_ok_iff.2 rfl, form, hf, (), trivial, rfl, rfl⟩

theorem verifyValue_eq_true_iff {site : Site} :
    (site.verifyValue ctx d).outcome = .ok true ↔
      ∃ method form, (site.signedInput ctx d).outcome = .ok (method, form) ∧
      ∃ value, Base64.decode? (d.unwrapped site.signatureValue) = some value ∧
        ctx.key.verify method (utf8 form) value = true := by
  have bytes_iff {value : Bytes} : site.valueBytes d = .ok value ↔
      Base64.decode? (d.unwrapped site.signatureValue) = some value := by
    rw [valueBytes]
    cases Base64.decode? (d.unwrapped site.signatureValue) <;> simp
  simp only [verifyValue, Traced.outcome_bind_eq_ok_iff, Traced.outcome_liftM,
    Traced.outcome_logIf, Traced.outcome_log, Traced.outcome_pure, Except.ok.injEq, bytes_iff]
  constructor
  · rintro ⟨⟨method, form⟩, hin, value, hv, -, -, -, -, h⟩
    exact ⟨method, form, hin, value, hv, h⟩
  · rintro ⟨method, form, hin, value, hv, h⟩
    exact ⟨(method, form), hin, value, hv, (), trivial, (), trivial, h⟩

end Site

theorem signedInfoForm_eq_ok_iff {info : NodeId} {form : String} :
    signedInfoForm d info = .ok form ↔
      ∃ mode : Mode, d.algorithmOf info ElementName.canonicalizationMethod = .ok mode.uri ∧
        d.canonical info none mode.keepsComments [] = .ok form := by
  rw [signedInfoForm, bind_eq_ok_iff]
  constructor
  · rintro ⟨uri, huri, h⟩
    split at h
    · next mode hm =>
      rw [Mode.ofUri?_eq_some_iff.1 hm] at huri
      exact ⟨mode, huri, h⟩
    · cases h
  · rintro ⟨mode, huri, h⟩
    refine ⟨_, huri, ?_⟩
    rw [Mode.ofUri?_eq_some_iff.2 rfl]
    exact h

theorem Site.verifyDigest_iff_conforms (hd : d.Linked) {site : Site} :
    (site.verifyDigest ctx d).outcome = .ok true ↔
      DigestConforms d site.parent site.signature site.reference := by
  simp only [verifyDigest_eq_true_iff, computeDigest_eq_ok_iff, Reference.checkLinkage_eq_ok_iff,
    Reference.transforms_eq_ok_iff hd, Document.algorithmOf_eq_ok_iff,
    Document.requiredChild_eq_ok_iff, signedForm]
  constructor
  · rintro ⟨digest, ⟨⟨id, nonempty, identified, linked⟩, t, ⟨list, first, second, transforms, pair,
      enveloped, canonical, ht⟩, method, ⟨m, digestMethod, hash⟩, form, written, rfl⟩, value,
      digestValue, eq⟩
    have taken : d.PrefixList second t.inclusive :=
      Reference.inclusive_eq_iff.1 (by rw [← ht])
    exact .intro nonempty identified linked transforms pair enveloped canonical taken digestMethod
      hash digestValue written (String.ofList_injective eq).symm
  · rintro ⟨nonempty, identified, linked, transforms, pair, enveloped, canonical, taken,
      digestMethod, hash, digestValue, written, digest⟩
    refine ⟨_, ⟨⟨_, nonempty, identified, linked⟩, ⟨_, Reference.prefixes d _⟩,
      ⟨_, _, _, transforms, pair, enveloped, canonical, rfl⟩, _, ⟨_, digestMethod, hash⟩, _, ?_,
      rfl⟩, _, digestValue, congrArg String.ofList digest.symm⟩
    rw [Reference.inclusive_eq_iff.2 taken]
    exact written

theorem Site.verifyValue_iff_conforms {site : Site} :
    (site.verifyValue ctx d).outcome = .ok true ↔
      ValueConforms ctx.key d site.signedInfo site.signatureValue := by
  simp only [verifyValue_eq_true_iff, signedInput_eq_ok_iff, signedInfoForm_eq_ok_iff,
    Document.algorithmOf_eq_ok_iff, Base64.decode?_eq_some_iff, Key.verify_eq_true_iff]
  constructor
  · rintro ⟨method, form, ⟨⟨m, signatureMethod, rsa⟩, mode, ⟨c, canonicalizationMethod, canonical⟩,
      written⟩, value, signed, valid⟩
    exact .intro canonicalizationMethod canonical signatureMethod rsa written signed valid
  · rintro ⟨canonicalizationMethod, canonical, signatureMethod, rsa, written, signed, valid⟩
    exact ⟨_, _, ⟨⟨_, signatureMethod, rsa⟩, _, ⟨_, canonicalizationMethod, canonical⟩, written⟩, _,
      signed, valid⟩

theorem verifySite_eq_true_iff {kind : SiteKind} {signature : NodeId} :
    (verifySite ctx d kind signature).outcome = .ok true ↔
      ∃ site, Site.locate d signature kind = .ok site ∧
        (site.verifyDigest ctx d).outcome = .ok true ∧
        (site.verifyValue ctx d).outcome = .ok true := by
  simp only [verifySite, Traced.outcome_bind_eq_ok_iff, Traced.outcome_liftM, Traced.outcome_log]
  constructor
  · rintro ⟨site, located, -, -, b, hb, h⟩
    cases b with
    | true => exact ⟨site, located, hb, h⟩
    | false => cases h
  · rintro ⟨site, located, hb, h⟩
    exact ⟨site, located, (), trivial, true, hb, h⟩

theorem verifySite_iff_conforms (hd : d.Linked) {kind : SiteKind} {parent signature : NodeId}
    {e : Element} (he : d.element? parent = some e) (hs : signature ∈ d.children parent) :
    (verifySite ctx d kind signature).outcome = .ok true ↔
      SignatureConforms ctx.key d parent signature := by
  simp only [verifySite_eq_true_iff, Site.locate_eq_ok_iff hd he hs,
    Site.verifyDigest_iff_conforms hd, Site.verifyValue_iff_conforms]
  constructor
  · rintro ⟨site, ⟨-, rfl, rfl, signedInfo, only, signatureValue⟩, digest, signed⟩
    exact .intro signedInfo only signatureValue digest signed
  · rintro ⟨signedInfo, only, signatureValue, digest, signed⟩
    exact ⟨⟨kind, signature, parent, _, _, _⟩, ⟨rfl, rfl, rfl, signedInfo, only, signatureValue⟩,
      digest, signed⟩

theorem rootSignature_eq_some_iff {signature : NodeId} :
    d.rootSignature = .ok (some signature) ↔
      ∃ root, d.FirstChild Document.root (fun c => ∃ e, d.element? c = some e) root ∧
        d.FirstChild root (d.Named Namespace.dsig ElementName.signature) signature := by
  have dsig : Namespace.dsig ≠ "" := by decide
  simp only [← Document.rootElement?_eq_some_iff, ← Document.childElement?_eq_some_iff dsig,
    Document.rootSignature]
  cases d.rootElement? <;> simp

theorem assertionSignature?_eq_some_iff {signature : NodeId} :
    d.assertionSignature? = some signature ↔
      ∃ root a, d.FirstChild Document.root (fun c => ∃ e, d.element? c = some e) root ∧
        d.FirstChild root (d.Named Namespace.samlAssertion ElementName.assertion) a ∧
        d.FirstChild a (d.Named Namespace.dsig ElementName.signature) signature := by
  have dsig : Namespace.dsig ≠ "" := by decide
  have saml : Namespace.samlAssertion ≠ "" := by decide
  simp only [← Document.rootElement?_eq_some_iff, ← Document.childElement?_eq_some_iff dsig,
    ← Document.childElement?_eq_some_iff saml, Document.assertionSignature?, bind,
    Option.bind_eq_some_iff, exists_and_left]

theorem verify_eq_true_iff : (verify ctx d).outcome = .ok true ↔
    ∃ signature, d.rootSignature = .ok (some signature) ∧
      (verifyAssertion ctx d).outcome = .ok true ∧
      (verifySite ctx d .root signature).outcome = .ok true := by
  simp only [verify, Traced.outcome_bind_eq_ok_iff, Traced.outcome_liftM]
  constructor
  · rintro ⟨found, hfound, h⟩
    cases found with
    | none => cases h
    | some signature =>
      obtain ⟨b, hb, h⟩ := Traced.outcome_bind_eq_ok_iff.1 h
      cases b with
      | true => exact ⟨signature, hfound, hb, h⟩
      | false => cases h
  · rintro ⟨signature, hfound, hb, h⟩
    exact ⟨some signature, hfound, Traced.outcome_bind_eq_ok_iff.2 ⟨true, hb, h⟩⟩

theorem verifyAssertion_eq_true_iff : (verifyAssertion ctx d).outcome = .ok true ↔
    ∀ signature, d.assertionSignature? = some signature →
      (verifySite ctx d .assertion signature).outcome = .ok true := by
  rw [verifyAssertion]
  cases d.assertionSignature? <;> simp

end Checks

/-- In a linked table, the check of a message says yes exactly if the message conforms. -/
theorem verify_iff_conforms {d : Document} (hd : d.Linked) {ctx : Context} :
    (verify ctx d).outcome = .ok true ↔ MessageConforms ctx.key d := by
  rw [verify_eq_true_iff, verifyAssertion_eq_true_iff]
  constructor
  · rintro ⟨signature, found, asserted, message⟩
    obtain ⟨root, element, signed⟩ := rootSignature_eq_some_iff.1 found
    obtain ⟨e, he⟩ := element.mem.2
    refine .intro element signed ?_ ((verifySite_iff_conforms hd he signed.mem.1).1 message)
    intro a s ha hs
    obtain ⟨ea, hea⟩ := ha.mem.2.element
    exact (verifySite_iff_conforms hd hea hs.mem.1).1
      (asserted s (assertionSignature?_eq_some_iff.2 ⟨root, a, element, ha, hs⟩))
  · rintro ⟨element, signed, asserted, message⟩
    obtain ⟨e, he⟩ := element.mem.2
    refine ⟨_, rootSignature_eq_some_iff.2 ⟨_, element, signed⟩, ?_,
      (verifySite_iff_conforms hd he signed.mem.1).2 message⟩
    intro s hs
    obtain ⟨root', a, element', ha, hs⟩ := assertionSignature?_eq_some_iff.1 hs
    obtain rfl := element.unique element'
    obtain ⟨ea, hea⟩ := ha.mem.2.element
    exact (verifySite_iff_conforms hd hea hs.mem.1).2 (asserted a s ha hs)

/-- A row with an element of the signature namespace. -/
def signatureRow (parent : NodeId) (name : String) (children : List NodeId)
    (attributes : List (String × String)) : Node :=
  ⟨.element ⟨⟨some "ds", name, some Namespace.dsig⟩,
    attributes.map fun a => ⟨⟨none, a.1, none⟩, a.2⟩, []⟩, some parent, children⟩

/-- A message of one element with a signature. -/
def message (attributes : List (String × String)) (uri digest value : String) : Document := ⟨#[
  ⟨.document, none, [1]⟩,
  ⟨.element ⟨⟨none, "r", none⟩, attributes.map fun a => ⟨⟨none, a.1, none⟩, a.2⟩,
    [⟨"ds", Namespace.dsig⟩]⟩, some 0, [2]⟩,
  signatureRow 1 "Signature" [3, 13] [],
  signatureRow 2 "SignedInfo" [4, 5, 6] [],
  signatureRow 3 "CanonicalizationMethod" [] [("Algorithm", Algorithm.exclusive)],
  signatureRow 3 "SignatureMethod" [] [("Algorithm", Algorithm.rsaSha1)],
  signatureRow 3 "Reference" [7, 10, 11] [("URI", uri)],
  signatureRow 6 "Transforms" [8, 9] [],
  signatureRow 7 "Transform" [] [("Algorithm", Algorithm.enveloped)],
  signatureRow 7 "Transform" [] [("Algorithm", Algorithm.exclusive)],
  signatureRow 6 "DigestMethod" [] [("Algorithm", Algorithm.sha1)],
  signatureRow 6 "DigestValue" [12] [],
  ⟨.text digest, some 11, []⟩,
  signatureRow 2 "SignatureValue" [14] [],
  ⟨.text value, some 13, []⟩]⟩

/-- The message with its attributes in the given order, sealed by `sealingKey`. -/
def sealedWith (attributes : List (String × String)) : Document :=
  message attributes "#i" "5rdBRe7hp42XM+fYQlHBeOL9K04="
    "GQL68VkXOLTAwVC8TagybnFfgfB+Tg+gsENOpThvgohYyGHUkLi94uYPnX9kwQ=="

def sealed : Document := sealedWith [("ID", "i"), ("IssueInstant", "t")]

/-- The text of the signature of `sealed` up to the end of the message, line by line. -/
def signatureLines : List String :=
  ["<ds:Signature><ds:SignedInfo>",
    "<ds:CanonicalizationMethod Algorithm='http://www.w3.org/2001/10/xml-exc-c14n#'/>",
    "<ds:SignatureMethod Algorithm='http://www.w3.org/2000/09/xmldsig#rsa-sha1'/>",
    "<ds:Reference URI='#i'><ds:Transforms>",
    "<ds:Transform Algorithm='http://www.w3.org/2000/09/xmldsig#enveloped-signature'/>",
    "<ds:Transform Algorithm='http://www.w3.org/2001/10/xml-exc-c14n#'/></ds:Transforms>",
    "<ds:DigestMethod Algorithm='http://www.w3.org/2000/09/xmldsig#sha1'/>",
    "<ds:DigestValue>5rdBRe7hp42XM+fYQlHBeOL9K04=</ds:DigestValue></ds:Reference></ds:SignedInfo>",
    "<ds:SignatureValue>GQL68VkXOLTAwVC8TagybnFfgfB+Tg+gsENOpThvgohYyGHUkLi94uYPnX9kwQ==",
    "</ds:SignatureValue></ds:Signature></r>"]

set_option maxRecDepth 10000 in
theorem parse_sealed : Document.parse (String.join
    ("<r xmlns:ds='http://www.w3.org/2000/09/xmldsig#' ID='i' IssueInstant='t'>" ::
      signatureLines)) = .ok sealed := by
  refine Document.parse_join ?_
  rw [signatureLines]
  simp only [List.flatMap_cons, List.flatMap_nil]
  -- the characters of a literal are at hand; to decode its bytes takes long
  repeat rw [String.toList_ofList]
  decide +kernel

/-- A key that is just large enough for SHA-1. -/
def sealingKey : Rsa.PrivateKey where
  publicKey :=
    ⟨0xb95138adc007d663c131004a5c0a455601dca6623756ec9bd02fafa19aa5985386a316336af61267de74456348eb,
      17⟩
  secret :=
    0x15cd51f652d3bede8f32f0f9b079adcde219f574f773a32a49bb53672d37dbff0cafd88e80cbc856e2476f178911

/-- The site of the signature in `sealed`. -/
def sealedSite : Site := ⟨.root, 2, 1, 3, 6, 13⟩

/-- The number that the signature value of `sealed` stands for. -/
def sealedValue : Nat :=
  0x1902faf1591738b4c0c150bc4da8326e715f81f07e4e0fa0b0434ea5386f828858c861d490b8bde2e60f9d7f64c1

/-- The text in an element that holds nothing else. -/
theorem Xml.Document.unwrapped_eq {d : Document} {x t : NodeId} {content : String}
    (only : d.children x = [t]) (text : d.kind? t = some (.text content)) :
    d.unwrapped x = content.toList.filter (!isSpace ·) := by
  rw [Document.unwrapped, Document.text, only, String.toList_ofList, List.flatMap_cons, text,
    List.flatMap_nil, List.append_nil]

/-- The canonical form of `sealed` without its signature. -/
def sealedForm : List Char := "<r ID=\"i\" IssueInstant=\"t\"></r>".toList

theorem digest_sealed : Base64.encode (DigestMethod.sha1.hash (utf8 (String.ofList sealedForm))) =
    "5rdBRe7hp42XM+fYQlHBeOL9K04=".toList := by
  rw [utf8_ofList]
  decide +kernel

theorem value_sealed : Key.verify (.publicKey sealingKey.publicKey) .rsaSha1
    (utf8 (String.ofList (Canonical.write (sealed.rendered 3 none false []))))
      (BigEndian.ofNat 46 sealedValue) = true := by
  rw [utf8_ofList]
  decide +kernel

/-- Nothing that is signed depends on the attributes of the message. -/
theorem signedInfoForm_sealedWith {attributes : List (String × String)}
    (info : (sealedWith attributes).rendered 3 none false [] = sealed.rendered 3 none false []) :
    signedInfoForm (sealedWith attributes) 3 =
      .ok (String.ofList (Canonical.write (sealed.rendered 3 none false []))) :=
  signedInfoForm_eq_ok_iff.2 ⟨.exclusive, rfl, Document.canonical_eq_ok rfl (congrArg _ info)⟩

/-- The order of the attributes of the message does not matter, as long as they are written in the
order that the digest was taken of. -/
theorem verify_sealedWith (debug : Bool) {attributes : List (String × String)}
    (linked : Reference.checkLinkage (sealedWith attributes) sealedSite = .ok ())
    (element : Canonical.write ((sealedWith attributes).rendered 1 (some 2) false []) = sealedForm)
    (info : (sealedWith attributes).rendered 3 none false [] = sealed.rendered 3 none false []) :
    (verify ⟨.publicKey sealingKey.publicKey, debug⟩ (sealedWith attributes)).outcome =
      .ok true := by
  refine verify_eq_true_iff.2 ⟨2, rfl, rfl, verifySite_eq_true_iff.2 ⟨sealedSite, rfl, ?_, ?_⟩⟩
  · have computed : (sealedSite.computeDigest ⟨.publicKey sealingKey.publicKey, debug⟩
        (sealedWith attributes)).outcome = .ok _ :=
      Site.computeDigest_eq_ok_iff.2 ⟨linked, ⟨.exclusive, none⟩, rfl, .sha1, rfl, _,
        Document.canonical_eq_ok rfl element, rfl⟩
    have held : (sealedWith attributes).unwrapped 11 = "5rdBRe7hp42XM+fYQlHBeOL9K04=".toList := by
      rw [Document.unwrapped_eq rfl rfl]
      decide +kernel
    exact Site.verifyDigest_eq_true_iff.2
      ⟨_, computed, 11, rfl, congrArg _ (digest_sealed.trans held.symm)⟩
  · have held : Base64.decode? ((sealedWith attributes).unwrapped 13) =
        some (BigEndian.ofNat 46 sealedValue) := by
      rw [Document.unwrapped_eq rfl rfl]
      decide +kernel
    exact Site.verifyValue_eq_true_iff.2
      ⟨.rsaSha1, _, Site.signedInput_eq_ok_iff.2 ⟨rfl, signedInfoForm_sealedWith info⟩, _, held,
        value_sealed⟩

theorem verify_sealed (debug : Bool) :
    (verify ⟨.publicKey sealingKey.publicKey, debug⟩ sealed).outcome = .ok true :=
  verify_sealedWith debug rfl (by decide +kernel) rfl

end SamlSeal
