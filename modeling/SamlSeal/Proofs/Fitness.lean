import SamlSeal.Proofs.Bindings
import SamlSeal.Proofs.Rereading

/-!
# What can be written again

Everything that was read can be written and read again, as far as single nodes are concerned.

* `Token.Maker.fits`: texts, values, comments and processing instructions that were read hold
  characters of XML only, and nothing that would end them,
* `Kind.Fit`: what this means for a node once its names are resolved.  No namespace is declared that
  cannot be, and no two attributes of an element have the same name,
* `Document.Fit.parse`, `Fit.setText`, `Fit.setAttribute`: all nodes of a document that was read are
  like this, and stay so when texts and attributes are set to texts of XML,
* `sign_induction`: signing does nothing but that.
-/

namespace SamlSeal.Xml

open Canonical

/-! ### Characters that were read -/

/-- The character that a text stands for at some place. -/
def Glyph.char : Glyph → Char
  | literal c => c
  | referenced c => c

/-- What a reference stands for is a character of XML. -/
theorem isChar_of_referent? {body : List Char} {c : Char} (h : referent? body = some c) :
    isChar c = true := by
  have position {n : Nat} (h : charAt? n = some c) : isChar c = true := by
    obtain ⟨-, h⟩ := Option.ite_none_right_eq_some.1 h
    obtain ⟨isChar, h⟩ := Option.ite_none_right_eq_some.1 h
    rwa [← Option.some.inj h]
  unfold referent? at h
  split at h
  · obtain ⟨n, -, h⟩ := Option.bind_eq_some_iff.1 h
    exact position h
  · obtain ⟨n, -, h⟩ := Option.bind_eq_some_iff.1 h
    exact position h
  · cases h; decide
  · cases h; decide
  · cases h; decide
  · cases h; decide
  · cases h; decide
  · cases h

theorem isChar_of_glyphs_go {pending : Option (List Char)} {cs : List Char} {gs : List Glyph}
    (chars : ∀ c ∈ cs, isChar c = true) (h : glyphs.go pending cs = some gs) :
    ∀ g ∈ gs, isChar g.char = true := by
  induction cs generalizing pending gs with
  | nil =>
    cases pending with
    | none =>
      obtain rfl := Option.some.inj h
      simp
    | some body => cases h
  | cons c cs ih =>
    obtain ⟨here, later⟩ := List.forall_mem_cons.1 chars
    cases pending with
    | none =>
      rw [glyphs.go] at h
      split at h
      · exact ih later h
      · obtain ⟨gs', hgs, rfl⟩ := Option.map_eq_some_iff.1 h
        exact List.forall_mem_cons.2 ⟨here, ih later hgs⟩
    | some body =>
      rw [glyphs.go] at h
      split at h
      · obtain ⟨r, hr, h⟩ := Option.bind_eq_some_iff.1 h
        obtain ⟨gs', hgs, rfl⟩ := Option.map_eq_some_iff.1 h
        exact List.forall_mem_cons.2 ⟨isChar_of_referent? hr, ih later hgs⟩
      · exact ih later h

/-- Evening out line ends makes no characters but line ends. -/
theorem isChar_evenLines_go {held asIs : Bool} {gs : List Glyph}
    (chars : ∀ g ∈ gs, isChar g.char = true) :
    ∀ c ∈ evenLines.go held asIs gs, isChar c = true := by
  have return' : isChar '\r' = true := by decide
  have feed : isChar '\n' = true := by decide
  have pending {c : Char} (hc : isChar c = true) (held : Bool) :
      ∀ b ∈ (if held then [c] else []), isChar b = true := by
    cases held <;> simp [hc]
  induction gs generalizing held asIs with
  | nil => cases asIs <;> exact pending return' held
  | cons g gs ih =>
    obtain ⟨here, later⟩ := List.forall_mem_cons.1 chars
    have goes {c : Char} (hc : isChar c = true) (held asIs : Bool) :
        ∀ b ∈ c :: evenLines.go held asIs gs, isChar b = true :=
      List.forall_mem_cons.2 ⟨hc, ih later⟩
    cases g with
    | referenced c =>
      rw [evenLines.go]
      refine List.forall_mem_append.2 ⟨pending return' held, ?_⟩
      split
      · exact ih later
      · exact goes here false true
    | literal c =>
      cases asIs with
      | true =>
        rw [evenLines.go]
        refine List.forall_mem_append.2 ⟨pending return' held, ?_⟩
        split
        · exact ih later
        · exact goes here false false
      | false =>
        rw [evenLines.go]
        refine List.forall_mem_append.2 ⟨pending feed held, ?_⟩
        split
        · split
          · simp [feed]
          · exact ih later
        · split
          · exact ih later
          · exact goes here false false

theorem isChar_evenSpaces {gs : List Glyph} (chars : ∀ g ∈ gs, isChar g.char = true) :
    ∀ c ∈ evenSpaces gs, isChar c = true := by
  have space : isChar ' ' = true := by decide
  fun_induction evenSpaces gs with
  | case1 => simp
  | case2 c gs ih =>
    obtain ⟨here, later⟩ := List.forall_mem_cons.1 chars
    exact List.forall_mem_cons.2 ⟨here, ih later⟩
  | case3 gs ih =>
    obtain ⟨-, later⟩ := List.forall_mem_cons.1 (List.forall_mem_cons.1 chars).2
    exact List.forall_mem_cons.2 ⟨space, ih later⟩
  | case4 gs c _ ih =>
    obtain ⟨here, later⟩ := List.forall_mem_cons.1 chars
    refine List.forall_mem_cons.2 ⟨?_, ih later⟩
    split
    · exact space
    · exact here

theorem isChar_of_textValue {raw s : List Char} (chars : raw.all isChar = true)
    (h : textValue raw = some s) : ∀ c ∈ s, isChar c = true := by
  obtain ⟨gs, hgs, rfl⟩ := Option.map_eq_some_iff.1 h
  exact isChar_evenLines_go (isChar_of_glyphs_go (List.all_eq_true.1 chars) hgs)

theorem isChar_sectionValue {raw : List Char} (chars : raw.all isChar = true) :
    ∀ c ∈ sectionValue raw, isChar c = true := by
  refine isChar_evenLines_go fun g hg => ?_
  obtain ⟨c, hc, rfl⟩ := List.mem_map.1 hg
  exact List.all_eq_true.1 chars c hc

theorem isChar_of_attributeValue {raw v : List Char} (chars : raw.all isChar = true)
    (h : attributeValue raw = some v) : ∀ c ∈ v, isChar c = true := by
  obtain ⟨gs, hgs, rfl⟩ := Option.map_eq_some_iff.1 h
  exact isChar_evenSpaces (isChar_of_glyphs_go (List.all_eq_true.1 chars) hgs)

/-! ### Tokens that were read -/

theorem AttributesRead.fits {cs rest : List Char} {closed : Bool}
    {as : List (WrittenName × String)} (h : AttributesRead cs as closed rest) :
    ∀ a ∈ as, AttributeFits a := by
  induction h with
  | stop => exact List.forall_mem_nil _
  | close => exact List.forall_mem_nil _
  | cons _ quoted stands _ ih =>
    obtain ⟨word, _, _, _, -, -, -, -, -, chars⟩ := quoted?_cases quoted
    refine List.forall_mem_cons.2 ⟨⟨word.sound, ?_⟩, ih⟩
    rw [String.toList_ofList]
    exact isChar_of_attributeValue chars stands

namespace Token

theorem start?_fits {cs rest : List Char} {t : Token} (h : start? cs = some (t, rest)) :
    t.Makes Item.Fits := by
  obtain ⟨name, as, closed, rfl, word, attributes⟩ := start?_cases h
  exact ⟨word.sound, attributes.fits⟩

theorem comment?_fits {cs rest : List Char} {t : Token} (h : comment? cs = some (t, rest)) :
    t.Makes Item.Fits := by
  obtain ⟨raw, rfl, cut, chars, noHyphens, noHyphen⟩ := comment?_cases h
  refine ⟨?_, ?_, ?_, ?_⟩ <;> rw [String.toList_ofList]
  · exact List.all_eq_true.1 chars
  · exact noHyphens
  · exact noHyphen
  · exact unbroken_of_splitAt? (by simp) cut

theorem instruction?_fits {cs rest : List Char} {t : Token}
    (h : instruction? cs = some (t, rest)) : t.Makes Item.Fits := by
  obtain ⟨raw, rfl, -, starts, cut, chars⟩ := instruction?_cases h
  have first : ∀ c ∈ raw.head?, isSpace c = false := by
    intro c hc
    have head := List.head?_dropWhile_not isSpace (cs.dropWhile isNameChar)
    rw [splitAt?_eq_append cut, List.head?_append, hc] at head
    simpa using head
  refine ⟨?_, ?_, ?_⟩
  · rwa [String.toList_ofList]
  · rw [String.toList_ofList]
    exact fun c hc => List.mem_takeWhile_imp hc
  · intro s hs
    split at hs
    · cases hs
    · next nonempty =>
      obtain rfl := Option.some.inj hs
      rw [String.toList_ofList]
      refine ⟨fun empty => nonempty ?_, List.all_eq_true.1 chars, first,
        unbroken_of_splitAt? (by simp) cut⟩
      rw [String.ofList_eq_empty_iff.1 empty]
      rfl

/-- Everything that was read can be written. -/
theorem Maker.fits : Maker Item.Fits where
  start := start?_fits
  comment := comment?_fits
  instruction := instruction?_fits
  text chars s hs := by
    rw [Item.Fits, String.toList_ofList]
    exact isChar_of_textValue chars hs
  literal chars := by
    rw [Makes, Item.Fits, String.toList_ofList]
    exact isChar_sectionValue chars
  join hs ht := by
    rw [Item.Fits, String.toList_append]
    exact List.forall_mem_append.2 ⟨hs, ht⟩

end Token

/-! ### Nodes that were read -/

/-- A namespace that can be declared. -/
structure UriFits (uri : String) : Prop where
  notXml : uri ≠ Namespace.xml
  notXmlns : uri ≠ Namespace.xmlns
  chars : ∀ c ∈ uri.toList, isChar c = true

theorem uriFits_empty : UriFits "" := ⟨by decide, by decide, by simp⟩

/-- All namespaces of a list can be declared. -/
def Namespaces.Fit (ns : Namespaces) : Prop := ∀ d ∈ ns, UriFits d.uri

/-- What an element has to satisfy, beside its names being names, so that it can be written and read
again: no two attributes have the same namespace and local name, attributes without a namespace have
no prefix and those of the namespace of `xml` have that prefix, and all values are texts of XML.  No
prefix is declared twice, and no binding ends but that of the default namespace. -/
structure Element.Fit (e : Element) : Prop where
  pfx : elementPfx e ≠ "xmlns"
  values : ∀ a ∈ e.attributes, ∀ c ∈ a.value.toList, isChar c = true
  unbound : ∀ a ∈ e.attributes, (a.name.uri = none → a.name.pfx = none) ∧
    (a.name.uri = some Namespace.xml → a.name.pfx = some "xml")
  distinct : (e.attributes.map fun a => (a.name.uri, a.name.localName)).Nodup
  single : (e.declarations.map (·.pfx)).Nodup
  declarations : Namespaces.Fit e.declarations
  ends : ∀ d ∈ e.declarations, d.uri = "" → d.pfx = ""

/-- What a node has to satisfy so that it can be written and read again. -/
def Kind.Fit : Kind → Prop
  | .document => False
  | .element e => e.Fit
  | .text content => ∀ c ∈ content.toList, isChar c = true
  | .comment content => CommentFits content
  | .instruction target data => InstructionFits target data

theorem Tag.declarations?_fit {as : List (WrittenName × String)} {own : Namespaces}
    (fits : ∀ a ∈ as, AttributeFits a) (h : declarations? as = some own) : own.Fit := by
  intro d hd
  obtain ⟨a, ha, declared⟩ := mem_declarations? h hd
  have chars := (fits a ha).2
  obtain ⟨notXmlns, notXml, ⟨-, rfl⟩ | rfl⟩ := declaration?_cases declared
  · exact ⟨notXml, notXmlns, chars⟩
  · exact ⟨notXml, notXmlns, chars⟩

theorem Namespaces.Fit.nil : Namespaces.Fit [] := List.forall_mem_nil _

theorem Namespaces.Fit.declare {s : Scope} {ds : List Declaration} (hs : Namespaces.Fit s)
    (hds : Namespaces.Fit ds) : Namespaces.Fit (s.declare ds) := by
  intro d hd
  rcases Scope.mem_declare hd with hd | hd
  · exact hs d hd
  · exact hds d hd

theorem Namespaces.Fit.extend {around own : Namespaces} (ha : around.Fit) (ho : own.Fit) :
    (around.extend own).Fit := by
  intro d hd
  rcases mem_extend hd with hd | ⟨hd, -⟩
  · exact ho d hd
  · exact ha d hd

theorem Namespaces.Fit.changes {ns : Namespaces} (h : ns.Fit) (around : Scope) :
    Namespaces.Fit (around.changes ns.toScope) := by
  intro d hd
  rcases (Scope.mem_changes (.toScope ns)).1 hd with ⟨bound, -⟩ | ⟨rfl, -⟩
  · exact h _ (Scope.mem_toScope (Scope.mem_of_uri? bound))
  · exact uriFits_empty

theorem Item.Leaf.fit {item : Item} {kind : Kind} (hk : item.Leaf kind) (h : item.Fits) :
    kind.Fit := by
  cases hk with
  | text => exact h
  | comment => exact h
  | instruction => exact h

theorem Markup.Resolved.fit {m : Markup} {around : Namespaces} {outer : Scope} {f : Forest Kind}
    (h : Resolved around outer m f) (fits : m.All Item.Fits) (sound : m.All Item.Sound)
    (ha : around.Fit) : ∀ k ∈ f.labels, k.Fit := by
  induction h with
  | nil => exact List.forall_mem_nil _
  | leaf hk _ ih =>
    obtain ⟨item, -, next⟩ := all_node.1 fits
    obtain ⟨-, -, snext⟩ := all_node.1 sound
    exact List.forall_mem_cons.2 ⟨hk.fit item, ih next snext ha⟩
  | element declared named scanned resolved _ _ ihInner ihNext =>
    obtain ⟨item, inner, next⟩ := all_node.1 fits
    obtain ⟨⟨-, -, agrees⟩, sinner, snext⟩ := all_node.1 sound
    have inside := ha.extend (Tag.declarations?_fit item.attributes declared)
    obtain ⟨made, distinct⟩ := resolveAttributes?_cases resolved
    refine List.forall_mem_cons.2
      ⟨⟨?_, fun a ha => ?_, fun a ha => ?_, distinct, Scope.nodup_changes _ (.toScope _),
        inside.changes _, fun d hd => Scope.pfx_of_changes (.toScope _) hd⟩,
        List.forall_mem_append.2 ⟨ihInner inner sinner inside, ihNext next snext ha⟩⟩
    · rw [elementPfx, agrees _ scanned]
      exact (Option.ite_none_left_eq_some.1 named).1
    · obtain ⟨x, hx, -, -, value, -⟩ := made a ha
      rw [value]
      exact (item.attributes x (List.mem_filter.1 hx).1).2
    · obtain ⟨x, -, place, -, -, pfx⟩ := made a ha
      refine ⟨fun none => ?_, fun xml => ?_⟩
      · rw [pfx, none]; rfl
      · rw [pfx, xml]; rfl

/-! ### Elements that are read as what they are -/

section Standing

variable {e : Element} (fit : e.Fit) (sound : e.Sound)

include fit

/-- The names of the attributes of a consistent element. -/
theorem Element.Fit.attribute_cases {s : Scope} (hs : Namespaces.Sound s)
    (consistent : e.Consistent s) {a : Attribute} (ha : a ∈ e.attributes) :
    a.name.uri = none ∧ a.name.pfx = none ∨
      a.name.uri = some Namespace.xml ∧ a.name.pfx = some "xml" ∨
      ∃ p uri, a.name.pfx = some p ∧ a.name.uri = some uri ∧ s.uri? p = some uri ∧ p ≠ "" ∧
        IsPfx p ∧ uri ≠ Namespace.xml := by
  obtain ⟨none, xml⟩ := fit.unbound a ha
  by_cases isXml : a.name.uri = some Namespace.xml
  · exact .inr (.inl ⟨isXml, xml isXml⟩)
  rcases consistent.attributes a ha with eq | eq | ⟨p, uri, hp, ne, huri, bound⟩
  · exact .inl ⟨eq, none eq⟩
  · exact absurd eq isXml
  · exact .inr (.inr ⟨p, uri, hp, huri, bound, ne, hs.isPfx bound,
      fun eq => isXml (huri.trans (congrArg some eq))⟩)

include sound

/-- The start tag of a consistent element can be written. -/
theorem Element.Fit.tag_fits {s : Scope} (hs : Namespaces.Sound s) (consistent : e.Consistent s) :
    e.tag.Fits := by
  have xmlns : IsNCName "xmlns" := by decide
  have xml : IsNCName "xml" := by decide
  refine ⟨⟨sound.pfx.2, sound.localName⟩, List.forall_mem_append.2 ⟨?_, ?_⟩⟩
  · refine List.forall_mem_map.2 fun d hd => ⟨?_, (fit.declarations d hd).chars⟩
    rw [Declaration.spelled]
    split
    · exact ⟨.inl rfl, xmlns⟩
    · next ne => exact ⟨.inr xmlns, (sound.declarations d hd).2.resolve_left ne⟩
  · refine List.forall_mem_map.2 fun a ha => ⟨⟨?_, (sound.attributes a ha).1⟩, fit.values a ha⟩
    rcases fit.attribute_cases hs consistent ha with ⟨-, pfx⟩ | ⟨-, pfx⟩ | ⟨p, -, pfx, -, -, -, hp, -⟩
    · exact .inl (by rw [Attribute.spelled, pfx]; rfl)
    · rw [Attribute.spelled, pfx]
      exact .inr xml
    · rw [Attribute.spelled, pfx]
      exact hp.2

/-- A consistent element is read as what it is. -/
theorem Element.Fit.stands {ns : Namespaces} (hns : ns.Sound) (single : ∀ p, Scope.Single ns p)
    (consistent : e.Consistent ns.toScope)
    (ordinary : ∀ a ∈ e.attributes, Canonical.attributePfx a ≠ "xmlns") : e.Stands ns := by
  have found {p uri : String} (bound : ns.toScope.uri? p = some uri) : ns.find? p = some uri := by
    rw [Scope.uri?_toScope (single p)] at bound
    exact (Option.filter_eq_some_iff.1 bound).1
  refine ⟨fit.pfx, fun ne => ?_, fun a ha => ⟨(sound.attributes a ha).2, ?_⟩, fit.distinct,
    fun d hd => ?_, fit.single.sublist (List.filter_sublist.map _)⟩
  · obtain ⟨uri, -, bound⟩ := consistent.prefixed ne sound.pfx.1
    rw [found bound]
    exact Option.some_ne_none uri
  · rcases fit.attribute_cases hns.toScope consistent ha with none | xml |
      ⟨p, uri, pfx, huri, bound, ne, hp, notXml⟩
    · exact .inl none
    · exact .inr (.inl xml)
    · refine .inr (.inr ⟨p, uri, pfx, huri, found bound, ne, hp.1, fun eq => ?_, notXml⟩)
      have written : Canonical.attributePfx a = p := by
        rw [Canonical.attributePfx, huri, pfx]
        exact if_neg notXml
      exact ordinary a ha (written.trans eq)
  · exact ⟨(sound.declarations d hd).1, (fit.declarations d hd).notXml,
      (fit.declarations d hd).notXmlns⟩

end Standing

namespace Document

variable {d d' : Document}

/-- All nodes of a document but node 0 can be written and read again. -/
def Fit (d : Document) : Prop := ∀ id k, id ≠ root → d.kind? id = some k → k.Fit

theorem Fit.parse {text : String} (h : parse text = .ok d) : d.Fit := by
  obtain ⟨m, f, hm, hf, rfl⟩ := parse_cases h
  intro id k ne hk
  obtain ⟨i, rfl⟩ := Nat.exists_eq_succ_of_ne_zero ne
  rw [kind?_ofForest] at hk
  exact hf.fit (Markup.all_read? Token.Maker.fits hm) (Markup.all_read? Token.Maker.sound hm)
    .nil k (List.mem_of_getElem? hk)

theorem Fit.element (hd : d.Fit) (linked : d.Linked) {id : NodeId} {e : Element}
    (h : d.element? id = some e) : e.Fit :=
  hd id _ (linked.ne_root h) (kind?_of_element? h)

theorem Fit.setText (hd : d.Fit) {id : NodeId} {content : String}
    (chars : ∀ c ∈ content.toList, isChar c = true) (h : d.setText id content = .ok d') :
    d'.Fit := by
  intro x k ne hk
  rcases kind?_setText_cases h hk with rfl | hk
  · exact chars
  · exact hd x k ne hk

/-- Setting an attribute that is there changes no name; otherwise it adds a new one at the end. -/
theorem map_name_set (name value : String) (as : List Attribute) :
    (Attribute.set name value as).map (·.name) = as.map (·.name) ∨
    (∀ a ∈ as, a.isPlain name = false) ∧
      (Attribute.set name value as).map (·.name) = as.map (·.name) ++ [QName.plain name] := by
  induction as with
  | nil => exact .inr ⟨by simp, rfl⟩
  | cons a as ih =>
    rw [Attribute.set]
    split
    · exact .inl rfl
    · next other =>
      rcases ih with same | ⟨none, new⟩
      · exact .inl (by rw [List.map_cons, List.map_cons, same])
      · refine .inr ⟨List.forall_mem_cons.2 ⟨by simpa using other, none⟩, ?_⟩
        rw [List.map_cons, List.map_cons, new, List.cons_append]

theorem value_of_mem_set {name value : String} {as : List Attribute} {a : Attribute}
    (h : a ∈ Attribute.set name value as) : a.value = value ∨ a ∈ as := by
  induction as with
  | nil => exact .inl (by rw [List.mem_singleton.1 h])
  | cons b as ih =>
    rw [Attribute.set] at h
    split at h
    · rcases List.mem_cons.1 h with rfl | h
      · exact .inl rfl
      · exact .inr (List.mem_cons_of_mem _ h)
    · rcases List.mem_cons.1 h with rfl | h
      · exact .inr List.mem_cons_self
      · exact (ih h).imp id (List.mem_cons_of_mem _)

theorem Fit.setAttribute (hd : d.Fit) (linked : d.Linked) {id : NodeId} {name value : String}
    (chars : ∀ c ∈ value.toList, isChar c = true) (h : d.setAttribute id name value = .ok d') :
    d'.Fit := by
  obtain ⟨e, he, rfl⟩ := setAttribute_cases h
  intro x k root hk
  rw [kind?_replaceElement he] at hk
  split at hk
  · obtain rfl := Option.some.inj hk
    obtain ⟨pfx, values, unbound, distinct, single, declarations, ends⟩ := hd.element linked he
    refine ⟨pfx, fun a ha => ?_, fun a ha => ?_, ?_, single, declarations, ends⟩
    · rcases value_of_mem_set ha with eq | old
      · rwa [eq]
      · exact values a old
    · rcases mem_set ha with eq | ⟨b, hb, eq⟩
      · rw [eq]
        exact ⟨fun _ => rfl, nofun⟩
      · rw [eq]
        exact unbound b hb
    · -- a new attribute has no namespace, and no other one of the name has none
      have names (as : List Attribute) : (as.map fun a => (a.name.uri, a.name.localName)) =
          (as.map (·.name)).map fun q => (q.uri, q.localName) := by simp
      rw [names] at distinct ⊢
      rcases map_name_set name value e.attributes with same | ⟨none, new⟩
      · rw [Element.setAttribute, same]
        exact distinct
      · rw [Element.setAttribute, new, List.map_append]
        refine List.Nodup.append distinct (List.nodup_singleton _) ?_
        intro q hq eq
        obtain rfl := List.mem_singleton.1 eq
        obtain ⟨_, mem, eq⟩ := List.mem_map.1 hq
        obtain ⟨b, hb, rfl⟩ := List.mem_map.1 mem
        obtain ⟨uri, localName⟩ := Prod.mk.inj eq
        have plain := none b hb
        simp [Attribute.isPlain, uri, localName, QName.plain] at plain
  · exact hd x k root hk

end Document

end SamlSeal.Xml

namespace SamlSeal

open Xml

/-- What setting attributes and texts keeps is kept by signing.  The attributes that are set have
names without a colon. -/
theorem sign_induction {Q : Document → Prop}
    (set : ∀ {d d' : Document} {x : NodeId} {name value : String}, Q d → IsNCName name →
      name ≠ "xmlns" → (∀ c ∈ value.toList, isChar c = true) →
      d.setAttribute x name value = .ok d' → Q d')
    (text : ∀ {d d' : Document} {x : NodeId} {content : String}, Q d →
      (∀ c ∈ content.toList, isChar c = true) → d.setText x content = .ok d' → Q d')
    {d : Document} (start : Q d) {ctx : Context} {id issueInstant : String}
    (hid : ∀ c ∈ id.toList, isChar c = true) (hinstant : ∀ c ∈ issueInstant.toList, isChar c = true)
    (h : (sign ctx d id issueInstant).trace.outcome = .ok ()) :
    Q (sign ctx d id issueInstant).document := by
  obtain ⟨root, site, stamped, digested, -, hstamp, hdigest, hvalue⟩ := sign_cases h
  obtain ⟨d₁, d₂, h₁, h₂, h₃⟩ := stamp_cases hstamp
  have encoded (bs : Bytes) :
      ∀ c ∈ (String.ofList (Base64.encode bs)).toList, isChar c = true := by
    rw [String.toList_ofList]
    exact fun c hc => (Base64.isChar_of_mem_encode hc).1
  have reference : ∀ c ∈ ("#" ++ id).toList, isChar c = true := by
    rw [String.toList_append]
    exact List.forall_mem_append.2 ⟨List.all_eq_true.1 (by decide), hid⟩
  have q₁ := set start (by decide) (by decide) hid h₁
  have q₂ := set q₁ (by decide) (by decide) reference h₂
  have q₃ := set q₂ (by decide) (by decide) hinstant h₃
  obtain ⟨digest, value, computed, -, filled⟩ := Site.produceDigest_eq_ok_iff.1 hdigest
  obtain ⟨-, _, -, _, -, _, -, rfl⟩ := Site.computeDigest_eq_ok_iff.1 computed
  have q₄ := text q₃ (encoded _) filled
  obtain ⟨method, form, value, -, -, filled⟩ := Site.produceValue_eq_ok_iff.1 hvalue
  exact text q₄ (encoded _) filled

end SamlSeal
