import SamlSeal.Proofs.Profile

/-!
# What a signature depends on

Whether a signature conforms depends on the rows below the element that it signs and on the bindings
around that element, and on nothing else (`SignatureConforms.congr`).

Changes keep most of this: setting an attribute keeps all names, children and declarations, and
setting a text keeps all elements.  The second half of this module says so for each of the questions
that the profile asks.  Documents with the same answers to them have the same references
(`SameLookups`).
-/

namespace SamlSeal

open Xml

namespace Xml.Document

variable {d d' d'' : Document} {a p x : NodeId}

/-! ### The rows below a node -/

/-- Two documents have the same rows at a node and below it. -/
structure SameBelow (d d' : Document) (a : NodeId) : Prop where
  kind : ∀ x, d.Below a x → d'.kind? x = d.kind? x
  children : ∀ x, d.Below a x → d'.children x = d.children x

namespace SameBelow

theorem element (h : SameBelow d d' a) (hx : d.Below a x) : d'.element? x = d.element? x := by
  rw [element?, h.kind x hx, element?]

theorem below (hd : d.Linked) (hd' : d'.Linked) (h : SameBelow d d' a) (hx : d.Below a x) :
    d'.Below a x := by
  induction hx with
  | refl => exact .refl
  | step hp hx ih =>
    refine .step ?_ ih
    rw [← hd'.mem_children_iff, h.children _ hx, hd.mem_children_iff]
    exact hp

theorem trans (hd : d.Linked) (hd' : d'.Linked) (h : SameBelow d d' a) (h' : SameBelow d' d'' a) :
    SameBelow d d'' a where
  kind x hx := (h'.kind x (h.below hd hd' hx)).trans (h.kind x hx)
  children x hx := (h'.children x (h.below hd hd' hx)).trans (h.children x hx)

theorem scopeAt (hd : d.Linked) (hd' : d'.Linked) (h : SameBelow d d' a)
    (around : d'.scopeAround a = d.scopeAround a) (hx : d.Below a x) :
    d'.scopeAt x = d.scopeAt x := by
  induction hx with
  | refl => rw [scopeAt_eq hd', scopeAt_eq hd, around, h.element .refl]
  | @step p c hp hx ih =>
    have hp' : d'.parent? c = some p := by
      rw [← hd'.mem_children_iff, h.children _ hx, hd.mem_children_iff]
      exact hp
    rw [scopeAt_eq hd', scopeAt_eq hd, h.element (.step hp hx), scopeAround_of_parent hp,
      scopeAround_of_parent hp', ih]

theorem scopeAround (hd : d.Linked) (hd' : d'.Linked) (h : SameBelow d d' a)
    (around : d'.scopeAround a = d.scopeAround a) (hx : d.Below a x) :
    d'.scopeAround x = d.scopeAround x := by
  obtain rfl | ⟨p, hp, hxp⟩ := hx.cases_parent
  · exact around
  · have hp' : d'.parent? x = some p := by
      rw [← hd'.mem_children_iff, h.children _ hxp, hd.mem_children_iff]
      exact hp
    rw [scopeAround_of_parent hp, scopeAround_of_parent hp', h.scopeAt hd hd' around hxp]

/-- The canonical form of an element below the node is the same. -/
theorem canonical (hd : d.Linked) (hd' : d'.Linked) (h : SameBelow d d' a)
    (around : d'.scopeAround a = d.scopeAround a) (hx : d.Below a x) {e : Element}
    (he : d.element? x = some e) {excluded : Option NodeId}
    (ex : ∀ s ∈ excluded, s ∈ d.children x) (comments : Bool) (inclusive : List String) :
    d'.canonical x excluded comments inclusive = d.canonical x excluded comments inclusive := by
  have ne : excluded ≠ some x := fun eq => Nat.lt_irrefl _ (hd.child_lt (ex x eq))
  have rows : SameRows d d' excluded [x] := by
    refine ⟨fun y hy _ => ?_, fun y hy _ => ?_, fun s hs => ?_, fun y hy s hs hb => ?_⟩
    · obtain ⟨b, hb, hy⟩ := hy
      obtain rfl := List.mem_singleton.1 hb
      exact h.kind y (hx.trans hy)
    · obtain ⟨b, hb, hy⟩ := hy
      obtain rfl := List.mem_singleton.1 hb
      exact h.children y (hx.trans hy)
    · rw [h.kind s (hx.child hd (ex s hs))]
    · obtain rfl := List.mem_singleton.1 hy
      exact absurd (hb.le hd) (Nat.not_le_of_lt (hd.child_lt (ex s hs)))
  exact canonical_congr hd hd' he ne rows (h.scopeAround hd hd' around hx) comments inclusive

theorem named (hd : d.Linked) (h : SameBelow d d' a) (hx : d.Below a x) {c : NodeId}
    (hc : c ∈ d.children x) (uri name : String) : d'.Named uri name c ↔ d.Named uri name c := by
  rw [Named, Named, h.element (hx.child hd hc)]

theorem firstChild (h : SameBelow d d' a) (hx : d.Below a x) {P P' : NodeId → Prop}
    (same : ∀ c ∈ d.children x, P' c ↔ P c) {c : NodeId} (hc : d.FirstChild x P c) :
    d'.FirstChild x P' c := by
  obtain ⟨before, after, eq, hP, first⟩ := hc
  refine ⟨before, after, (h.children x hx).trans eq, (same c ?_).2 hP, fun b hb => ?_⟩
  · rw [eq]
    simp
  · rw [same b (by rw [eq]; simp [hb])]
    exact first b hb

theorem firstNamed (hd : d.Linked) (h : SameBelow d d' a) (hx : d.Below a x) {uri name : String}
    {c : NodeId} (hc : d.FirstChild x (d.Named uri name) c) :
    d'.FirstChild x (d'.Named uri name) c :=
  h.firstChild hx (fun _ hc => h.named hd hx hc uri name) hc

theorem lists (hd : d.Linked) (h : SameBelow d d' a) (hx : d.Below a x) {uri name : String}
    {cs : List NodeId} (hcs : d.Lists x (d.Named uri name) cs) :
    d'.Lists x (d'.Named uri name) cs := by
  obtain ⟨sub, mem⟩ := hcs
  refine ⟨by rw [h.children x hx]; exact sub, fun c hc => ?_⟩
  rw [h.children x hx] at hc
  rw [mem c hc, h.named hd hx hc]

theorem hasAttribute (h : SameBelow d d' a) (hx : d.Below a x) {name value : String} :
    d'.HasAttribute x name value ↔ d.HasAttribute x name value := by
  rw [HasAttribute, HasAttribute, h.element hx]

theorem prefixList (hd : d.Linked) (h : SameBelow d d' a) (hx : d.Below a x) {ps : List String}
    (hps : d.PrefixList x ps) : d'.PrefixList x ps := by
  have same : ∀ c ∈ d.children x, d'.LocallyNamed ElementName.inclusiveNamespaces c ↔
      d.LocallyNamed ElementName.inclusiveNamespaces c := by
    intro c hc
    rw [LocallyNamed, LocallyNamed, h.element (hx.child hd hc)]
  cases hps with
  | absent none =>
    refine .absent fun c hc => ?_
    rw [h.children x hx] at hc
    rw [same c hc]
    exact none c hc
  | listed first list words =>
    exact .listed (h.firstChild hx same first)
      ((h.hasAttribute (hx.child hd first.mem.1)).2 list) words
  | unlisted first none =>
    refine .unlisted (h.firstChild hx same first) fun value => ?_
    rw [h.hasAttribute (hx.child hd first.mem.1)]
    exact none value

theorem text (hd : d.Linked) (h : SameBelow d d' a) (hx : d.Below a x) : d'.text x = d.text x := by
  rw [Document.text, h.children x hx, Document.text, List.flatMap_def, List.flatMap_def]
  refine congrArg (fun ts => String.ofList ts.flatten) (List.map_congr_left fun c hc => ?_)
  rw [h.kind c (hx.child hd hc)]

theorem holdsBase64 (hd : d.Linked) (h : SameBelow d d' a) (hx : d.Below a x) {bytes : Bytes}
    (hb : d.HoldsBase64 x bytes) : d'.HoldsBase64 x bytes := by
  rw [HoldsBase64, h.text hd hx]
  exact hb

end SameBelow

end Xml.Document

section Conformance

variable {key : Key} {d d' : Document} {a : NodeId}

theorem DigestConforms.congr (hd : d.Linked) (hd' : d'.Linked) (h : d.SameBelow d' a)
    (around : d'.scopeAround a = d.scopeAround a) {e : Element} (he : d.element? a = some e)
    {signature reference : NodeId} (hs : signature ∈ d.children a) (hr : d.Below a reference)
    (hc : DigestConforms d a signature reference) : DigestConforms d' a signature reference := by
  obtain ⟨nonempty, identified, linked, transforms, pair, enveloped, canonical, taken,
    digestMethod, hash, digestValue, written, digest⟩ := hc
  have list := hr.child hd transforms.mem.1
  have first := list.child hd (pair.1.subset List.mem_cons_self)
  have second := list.child hd (pair.1.subset (List.mem_cons_of_mem _ List.mem_cons_self))
  refine .intro nonempty ((h.hasAttribute .refl).2 identified) ((h.hasAttribute hr).2 linked)
    (h.firstNamed hd hr transforms) (h.lists hd list pair) ((h.hasAttribute first).2 enveloped)
    ((h.hasAttribute second).2 canonical) (h.prefixList hd second taken)
    (h.firstNamed hd hr digestMethod) ((h.hasAttribute (hr.child hd digestMethod.mem.1)).2 hash)
    (h.firstNamed hd hr digestValue) ?_ (h.holdsBase64 hd (hr.child hd digestValue.mem.1) digest)
  rw [h.canonical hd hd' around .refl he]
  · exact written
  · intro s hs'
    rwa [← Option.some.inj hs']

theorem ValueConforms.congr (hd : d.Linked) (hd' : d'.Linked) (h : d.SameBelow d' a)
    (around : d'.scopeAround a = d.scopeAround a) {info value : NodeId} (hi : d.Below a info)
    {e : Element} (he : d.element? info = some e) (hv : d.Below a value)
    (hc : ValueConforms key d info value) : ValueConforms key d' info value := by
  obtain ⟨canonicalizationMethod, canonical, signatureMethod, rsa, written, signed, valid⟩ := hc
  have mode := hi.child hd canonicalizationMethod.mem.1
  have method := hi.child hd signatureMethod.mem.1
  refine .intro (h.firstNamed hd hi canonicalizationMethod) ((h.hasAttribute mode).2 canonical)
    (h.firstNamed hd hi signatureMethod) ((h.hasAttribute method).2 rsa) ?_
    (h.holdsBase64 hd hv signed) valid
  rw [h.canonical hd hd' around hi he]
  · exact written
  · intro s hs
    cases hs

/-- Whether a signature conforms depends on the rows below the signed element and on the bindings
around it. -/
theorem SignatureConforms.congr (hd : d.Linked) (hd' : d'.Linked) (h : d.SameBelow d' a)
    (around : d'.scopeAround a = d.scopeAround a) {e : Element} (he : d.element? a = some e)
    {signature : NodeId} (hs : signature ∈ d.children a)
    (hc : SignatureConforms key d a signature) : SignatureConforms key d' a signature := by
  obtain ⟨signedInfo, only, signatureValue, digest, signed⟩ := hc
  have here : d.Below a signature := Document.Below.refl.child hd hs
  have info := here.child hd signedInfo.mem.1
  have reference := info.child hd (only.1.subset List.mem_cons_self)
  obtain ⟨ei, hei⟩ := signedInfo.mem.2.element
  exact .intro (h.firstNamed hd here signedInfo) (h.lists hd info only)
    (h.firstNamed hd here signatureValue) (digest.congr hd hd' h around he hs reference)
    (signed.congr hd hd' h around info hei (here.child hd signatureValue.mem.1))

end Conformance

namespace Xml.Document

variable {d d' : Document} {id : NodeId}

/-! ### Setting an attribute -/

theorem find?_set (name value other : String) (as : List Attribute) :
    ((Attribute.set name value as).find? (Attribute.isPlain other)).map (·.value) =
      if other = name then some value
      else (as.find? (Attribute.isPlain other)).map (·.value) := by
  induction as with
  | nil =>
    by_cases same : other = name
    · simp [Attribute.set, Attribute.isPlain, QName.plain, same]
    · simp [Attribute.set, Attribute.isPlain, QName.plain, same, Ne.symm same]
  | cons a as ih =>
    rw [Attribute.set]
    by_cases here : a.isPlain name = true
    · rw [if_pos here]
      have valued : Attribute.isPlain other { a with value := value } = a.isPlain other := rfl
      by_cases same : other = name
      · rw [List.find?_cons_of_pos (by rw [valued, same, here]), if_pos same]
        rfl
      · have not : ¬ a.isPlain other = true := by
          simp only [Attribute.isPlain, Bool.and_eq_true, beq_iff_eq] at here ⊢
          exact fun h => same (h.2.symm.trans here.2)
        rw [List.find?_cons_of_neg (by rwa [valued]), List.find?_cons_of_neg not, if_neg same]
    · rw [if_neg here]
      by_cases there : a.isPlain other = true
      · have ne : other ≠ name := fun eq => here (eq ▸ there)
        rw [List.find?_cons_of_pos there, List.find?_cons_of_pos there, if_neg ne]
      · rw [List.find?_cons_of_neg there, List.find?_cons_of_neg there, ih]

section SetAttribute

variable {name value : String} (h : d.setAttribute id name value = .ok d')

include h in
theorem children_setAttribute (other : NodeId) : d'.children other = d.children other := by
  obtain ⟨e, -, rfl⟩ := setAttribute_cases h
  exact children_replaceElement d id other _

include h in
theorem parent?_setAttribute (other : NodeId) : d'.parent? other = d.parent? other := by
  obtain ⟨e, -, rfl⟩ := setAttribute_cases h
  exact parent?_replaceElement d id other _

include h in
theorem kind?_setAttribute {other : NodeId} (ne : other ≠ id) : d'.kind? other = d.kind? other := by
  obtain ⟨e, he, rfl⟩ := setAttribute_cases h
  rw [kind?_replaceElement he, if_neg ne]

include h in
/-- Elements keep their names and declarations. -/
theorem element?_setAttribute (other : NodeId) :
    (d'.element? other).map (fun e => (e.name, e.declarations)) =
      (d.element? other).map (fun e => (e.name, e.declarations)) := by
  obtain ⟨e, he, rfl⟩ := setAttribute_cases h
  rw [element?_replaceElement he]
  split
  · next eq =>
    rw [eq, he]
    rfl
  · rfl

include h in
/-- The attribute has its new value, and all others have their old ones. -/
theorem attribute?_setAttribute (other : NodeId) (n : String) : d'.attribute? other n =
    if other = id ∧ n = name then some value else d.attribute? other n := by
  obtain ⟨e, he, rfl⟩ := setAttribute_cases h
  rw [attribute?, element?_replaceElement he, attribute?]
  by_cases same : other = id
  · rw [if_pos same, same, he, Option.bind_some, Option.bind_some, Element.setAttribute, find?_set]
    simp only [true_and]
  · rw [if_neg same, if_neg fun both => same both.1]

include h in
theorem named_setAttribute : d'.Named = d.Named := by
  funext uri n c
  have eq := element?_setAttribute h c
  rw [Named, Named]
  cases h₁ : d.element? c with
  | none =>
    rw [h₁, Option.map_none, Option.map_eq_none_iff] at eq
    simp [eq]
  | some e =>
    rw [h₁, Option.map_some, Option.map_eq_some_iff] at eq
    obtain ⟨e', he', eq⟩ := eq
    simp [he', (Prod.mk.inj eq).1]

include h in
theorem firstNamed_setAttribute {p c : NodeId} {uri n : String} :
    d'.FirstChild p (d'.Named uri n) c ↔ d.FirstChild p (d.Named uri n) c := by
  rw [FirstChild, FirstChild, children_setAttribute h, named_setAttribute h]

include h in
theorem lists_setAttribute {p : NodeId} {cs : List NodeId} {uri n : String} :
    d'.Lists p (d'.Named uri n) cs ↔ d.Lists p (d.Named uri n) cs := by
  rw [Lists, Lists, children_setAttribute h, named_setAttribute h]

include h in
theorem isElement_setAttribute (c : NodeId) :
    (∃ e, d'.element? c = some e) ↔ ∃ e, d.element? c = some e := by
  have eq := congrArg Option.isSome (element?_setAttribute h c)
  rw [Option.isSome_map, Option.isSome_map] at eq
  rw [← Option.isSome_iff_exists, ← Option.isSome_iff_exists, eq]

include h in
theorem scopeAt_setAttribute (hd : d.Linked) (x : NodeId) : d'.scopeAt x = d.scopeAt x := by
  refine scopeAt_congr hd (hd.setAttribute h) x fun a _ => ⟨parent?_setAttribute h a, ?_⟩
  have eq := congrArg (Option.map Prod.snd) (element?_setAttribute h a)
  simpa only [Option.map_map, Function.comp_def] using eq

include h in
theorem scopeAround_setAttribute (hd : d.Linked) (x : NodeId) :
    d'.scopeAround x = d.scopeAround x := by
  rw [scopeAround, parent?_setAttribute h, scopeAround]
  cases d.parent? x with
  | none => rfl
  | some p => exact scopeAt_setAttribute h hd p

include h in
theorem sameBelow_setAttribute {a : NodeId} (out : ¬ d.Below a id) : d.SameBelow d' a where
  kind _ hx := kind?_setAttribute h fun eq => out (eq ▸ hx)
  children x _ := children_setAttribute h x

end SetAttribute

/-! ### Setting a text -/

section SetText

variable {content : String} (h : d.setText id content = .ok d')

include h in
theorem named_setText : d'.Named = d.Named := by
  funext uri n c
  simp only [Named, element?_setText h]

include h in
theorem hasAttribute_setText : d'.HasAttribute = d.HasAttribute := by
  funext x n v
  simp only [HasAttribute, element?_setText h]

include h in
theorem children_setText_of_ne {p : NodeId} (ne : p ≠ id) : d'.children p = d.children p := by
  rw [children_setText h, if_neg ne]

include h in
theorem firstNamed_setText {p c : NodeId} (ne : p ≠ id) {uri n : String} :
    d'.FirstChild p (d'.Named uri n) c ↔ d.FirstChild p (d.Named uri n) c := by
  rw [FirstChild, FirstChild, children_setText_of_ne h ne, named_setText h]

include h in
theorem lists_setText {p : NodeId} (ne : p ≠ id) {cs : List NodeId} {uri n : String} :
    d'.Lists p (d'.Named uri n) cs ↔ d.Lists p (d.Named uri n) cs := by
  rw [Lists, Lists, children_setText_of_ne h ne, named_setText h]

include h in
theorem prefixList_setText {p : NodeId} (ne : p ≠ id) {ps : List String}
    (hps : d.PrefixList p ps) : d'.PrefixList p ps := by
  have names : d'.LocallyNamed = d.LocallyNamed := by
    funext n c
    simp only [LocallyNamed, element?_setText h]
  have first {c : NodeId} (hc : d.FirstChild p (d.LocallyNamed ElementName.inclusiveNamespaces) c) :
      d'.FirstChild p (d'.LocallyNamed ElementName.inclusiveNamespaces) c := by
    rw [FirstChild, children_setText_of_ne h ne, names]
    exact hc
  cases hps with
  | absent none =>
    refine .absent ?_
    rw [children_setText_of_ne h ne, names]
    exact none
  | listed hc list words =>
    exact .listed (first hc) (by rw [hasAttribute_setText h]; exact list) words
  | unlisted hc none => exact .unlisted (first hc) (by rw [hasAttribute_setText h]; exact none)

include h in
theorem text_setText_of_ne (hd : d.Linked) {x : NodeId} (ne : x ≠ id) : d'.text x = d.text x := by
  rw [Document.text, children_setText_of_ne h ne, Document.text, List.flatMap_def,
    List.flatMap_def]
  refine congrArg (fun ts => String.ofList ts.flatten) (List.map_congr_left fun c hc => ?_)
  rw [kind?_setText h (hd.child_lt_size hc)]

include h in
theorem parent?_setText_of_le (hd : d.Linked) {x : NodeId} (le : x ≤ id) :
    d'.parent? x = d.parent? x := by
  have bound : id < d.size := by
    obtain ⟨hp, -⟩ := setText_cases h
    rwa [size_detachChildren] at hp
  have notChild : x ∉ d.children id := fun mem => Nat.not_le_of_lt (hd.child_lt mem) le
  rw [parent?_setText h (Nat.lt_of_le_of_lt le bound), if_neg notChild]

include h in
/-- The bindings at a node that is not after the changed one stay. -/
theorem scopeAt_setText_of_le (hd : d.Linked) {x : NodeId} (le : x ≤ id) :
    d'.scopeAt x = d.scopeAt x := by
  refine scopeAt_congr hd (hd.setText h) x fun a ha => ⟨?_, by rw [element?_setText h]⟩
  exact parent?_setText_of_le h hd (Nat.le_trans (ha.le hd) le)

include h in
theorem scopeAround_setText (hd : d.Linked) {x : NodeId} (le : x ≤ id) :
    d'.scopeAround x = d.scopeAround x := by
  rw [scopeAround, parent?_setText_of_le h hd le, scopeAround]
  cases hp : d.parent? x with
  | none => rfl
  | some p => exact scopeAt_setText_of_le h hd (Nat.le_trans (Nat.le_of_lt (hd.parent_lt hp)) le)

include h in
/-- The bindings around a node stay if its parent is before the changed node. -/
theorem scopeAround_setText_of_parent (hd : d.Linked) {p x : Nat} (hx : x ∈ d.children p)
    (lt : p < id) : d'.scopeAround x = d.scopeAround x := by
  have hp := hd.mem_children_iff.1 hx
  -- only the children of the changed node lose their parent
  have kept : x ∉ d.children id := fun mem =>
    Nat.ne_of_lt lt (Option.some.inj (hp.symm.trans (hd.mem_children_iff.1 mem)))
  rw [scopeAround, parent?_setText h (hd.child_lt_size hx), if_neg kept, hp, scopeAround, hp]
  exact scopeAt_setText_of_le h hd (Nat.le_of_lt lt)

include h in
theorem sameBelow_setText {a : NodeId} (ha : a < d.size) (out : ¬ d.Below a id) :
    d.SameBelow d' a where
  kind x hx := by
    refine kind?_setText h ?_
    obtain rfl | ⟨p, hp, -⟩ := hx.cases_parent
    · exact ha
    · exact lt_size_of_parent? hp
  children x hx := children_setText_of_ne h fun eq => out (eq ▸ hx)

include h in
/-- A text that is set below the excluded node leaves the canonical form as it is. -/
theorem canonical_setText_of_excluded (hd : d.Linked) {p s : NodeId} {e : Element}
    (he : d.element? p = some e) (hs : s ∈ d.children p) (hid : d.Below s id) (comments : Bool)
    (inclusive : List String) :
    d'.canonical p (some s) comments inclusive = d.canonical p (some s) comments inclusive := by
  have lt := hd.child_lt hs
  have ne : some s ≠ some p := fun eq => Nat.ne_of_gt lt (Option.some.inj eq)
  have up : p ≤ id := Nat.le_trans (Nat.le_of_lt lt) (hid.le hd)
  refine canonical_congr hd (hd.setText h) he ne ?_ (scopeAround_setText h hd up) comments inclusive
  -- what is kept lies outside the excluded node, and the text was set inside it
  refine ⟨fun x hx kept => ?_, fun x _ kept => ?_, fun x hx => ?_, fun x hx y hy below => ?_⟩
  · obtain ⟨a, ha, hx⟩ := hx
    obtain rfl := List.mem_singleton.1 ha
    refine kind?_setText h ?_
    obtain rfl | ⟨q, hq, -⟩ := hx.cases_parent
    · exact lt_size_of_element? he
    · exact lt_size_of_parent? hq
  · exact children_setText_of_ne h fun eq => kept s rfl (eq ▸ hid)
  · obtain rfl := Option.some.inj hx
    rw [kind?_setText h (hd.child_lt_size hs)]
  · obtain rfl := List.mem_singleton.1 hx
    obtain rfl := Option.some.inj hy
    exact absurd (below.le hd) (Nat.not_le_of_lt lt)

end SetText

/-! ### Looking for elements and algorithms -/

/-- Two documents give the same answers when elements are looked for among children, and when
algorithms and lists of prefixes are read off them. -/
structure SameLookups (d d' : Document) : Prop where
  first : ∀ x uri name, d'.childElement? x uri name = d.childElement? x uri name
  all : ∀ x uri name, d'.childElements x uri name = d.childElements x uri name
  named : ∀ x name, d'.childNamed? x name = d.childNamed? x name
  algorithm : ∀ x, d'.attribute? x AttributeName.algorithm = d.attribute? x AttributeName.algorithm
  prefixList : ∀ x,
    d'.attribute? x AttributeName.prefixList = d.attribute? x AttributeName.prefixList

namespace SameLookups

variable {d'' : Document}

theorem trans (h : SameLookups d d') (h' : SameLookups d' d'') : SameLookups d d'' where
  first x uri name := (h'.first x uri name).trans (h.first x uri name)
  all x uri name := (h'.all x uri name).trans (h.all x uri name)
  named x name := (h'.named x name).trans (h.named x name)
  algorithm x := (h'.algorithm x).trans (h.algorithm x)
  prefixList x := (h'.prefixList x).trans (h.prefixList x)

theorem setAttribute {name value : String} (h : d.setAttribute id name value = .ok d')
    (algorithm : AttributeName.algorithm ≠ name) (prefixList : AttributeName.prefixList ≠ name) :
    SameLookups d d' := by
  -- elements keep their names
  have names (x : NodeId) : d'.element? x = none ∧ d.element? x = none ∨
      ∃ e e', d'.element? x = some e' ∧ d.element? x = some e ∧ e'.name = e.name := by
    have eq := element?_setAttribute h x
    cases he : d.element? x with
    | none => exact .inl ⟨by simpa [he] using eq, rfl⟩
    | some e =>
      rw [he, Option.map_some, Option.map_eq_some_iff] at eq
      obtain ⟨e', he', eq⟩ := eq
      exact .inr ⟨e, e', he', rfl, (Prod.mk.inj eq).1⟩
  have isNamed : d'.isNamed = d.isNamed := by
    funext uri n x
    rw [Document.isNamed, Document.isNamed]
    rcases names x with ⟨none', none⟩ | ⟨e, e', he', he, name⟩
    · rw [none', none]
    · rw [he', he]
      dsimp only
      rw [name]
  refine ⟨fun x uri n => ?_, fun x uri n => ?_, fun x n => ?_, fun x => ?_, fun x => ?_⟩
  · rw [childElement?, childElement?, children_setAttribute h, isNamed]
  · rw [childElements, childElements, children_setAttribute h, isNamed]
  · rw [childNamed?, childNamed?, children_setAttribute h]
    refine congrArg (List.find? · (d.children x)) (funext fun c => ?_)
    rcases names c with ⟨none', none⟩ | ⟨e, e', he', he, name⟩
    · rw [none', none]
    · rw [he', he]
      dsimp only
      rw [name]
  · rw [attribute?_setAttribute h, if_neg fun both => algorithm both.2]
  · rw [attribute?_setAttribute h, if_neg fun both => prefixList both.2]

variable (h : SameLookups d d')

include h

theorem requiredChild_eq (x : NodeId) (name : String) :
    d'.requiredChild x name = d.requiredChild x name := by
  rw [requiredChild, requiredChild, h.first]

theorem algorithmOf_eq (x : NodeId) (name : String) :
    d'.algorithmOf x name = d.algorithmOf x name := by
  simp only [algorithmOf, h.requiredChild_eq, h.algorithm]

theorem transforms_eq (x : NodeId) : Reference.transforms d' x = Reference.transforms d x := by
  have pair : Reference.transformPair d' x = Reference.transformPair d x := by
    simp only [Reference.transformPair, h.first, h.all]
  have algorithm : Reference.transformAlgorithm d' = Reference.transformAlgorithm d := by
    funext y
    simp only [Reference.transformAlgorithm, h.algorithm]
  have prefixes : Reference.prefixes d' = Reference.prefixes d := by
    funext y
    simp only [Reference.prefixes, h.named, h.prefixList]
  simp only [Reference.transforms, pair, algorithm, prefixes]

theorem onlyReference_eq (x : NodeId) : Site.onlyReference d' x = Site.onlyReference d x := by
  simp only [Site.onlyReference, h.all]

end SameLookups

end Xml.Document

end SamlSeal
