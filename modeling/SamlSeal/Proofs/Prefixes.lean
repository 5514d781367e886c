import SamlSeal.Proofs.Bindings
import SamlSeal.Proofs.Fitness
import SamlSeal.Proofs.StartTags

/-!
# Prefixes that are kept

A document keeps the prefixes that stand in its start tags, although names are the same without
them.

* `QName.WrittenAs`, `Attribute.StandsAs`: names and attributes with the words that stand for them,
* `Element.KeepsPrefixes`: the name of an element and its attributes are written in its start tag as
  they are kept, in the same order,
* `Document.prefixes_of_parse`: so it is for every element of a document that was read, unless an
  attribute has the local name `xmlns` and a prefix.

That attribute declares a namespace, but the scan of the tag takes it for another attribute, and
then the prefixes are looked up instead (`Document.prefixes_crossed`).
-/

namespace SamlSeal.Xml

/-! ### Names and words -/

/-- A name as it stands in a tag: its prefix, a colon and its local part, or the local part alone if
there is no prefix. -/
def QName.WrittenAs (name : QName) (word : List Char) : Prop :=
  match name.pfx with
  | some p => word = p.toList ++ ':' :: name.localName.toList ∧ ':' ∉ p.toList
  | none => word = name.localName.toList ∧ ':' ∉ word

/-- An attribute and the word that stands for it.  A colon with nothing in front is no prefix of an
attribute; the attribute has no namespace then. -/
def Attribute.StandsAs (a : Attribute) (word : List Char) : Prop :=
  a.name.WrittenAs word ∨ a.name.uri = none ∧ word = ':' :: a.name.localName.toList

namespace IsWordOf

variable {word : List Char} {name : WrittenName} (h : IsWordOf word name)

include h

/-- The part in front of the first colon is the prefix. -/
theorem writtenAs (uri : Option String) :
    QName.WrittenAs ⟨SamlSeal.Xml.writtenPfx? (String.ofList word), name.localName, uri⟩ word := by
  have split : word.takeWhile (· != ':') ++ word.dropWhile (· != ':') = word :=
    List.takeWhile_append_dropWhile
  have front : ':' ∉ word.takeWhile (· != ':') := fun mem => by
    simpa using List.mem_takeWhile_imp mem
  have eq := h.1
  rw [WrittenName.ofWord?, List.span_eq_takeWhile_dropWhile] at eq
  rw [QName.WrittenAs, SamlSeal.Xml.writtenPfx?, String.toList_ofList,
    List.span_eq_takeWhile_dropWhile]
  cases rest : word.dropWhile (· != ':') with
  | nil =>
    rw [rest, List.append_nil] at split
    simp only [rest] at eq
    obtain ⟨-, eq⟩ := Option.ite_none_right_eq_some.1 eq
    obtain rfl := Option.some.inj eq
    rw [split] at front ⊢
    exact ⟨(String.toList_ofList).symm, front⟩
  | cons colon tail =>
    have isColon : colon = ':' := by
      have no := List.head?_dropWhile_not (· != ':') word
      simpa [rest] using no
    subst isColon
    simp only [rest] at eq
    obtain ⟨-, eq⟩ := Option.ite_none_right_eq_some.1 eq
    obtain rfl := Option.some.inj eq
    rw [rest] at split
    simp only [String.toList_ofList]
    exact ⟨split.symm, front⟩

theorem writtenPfx?_of_ne (ne : name.pfx ≠ "") :
    SamlSeal.Xml.writtenPfx? (String.ofList word) = some name.pfx := by
  have pfx := h.writtenPfx?
  cases written : SamlSeal.Xml.writtenPfx? (String.ofList word) with
  | none =>
    rw [written] at pfx
    exact absurd pfx.symm ne
  | some p =>
    rw [written] at pfx
    exact congrArg some pfx

/-- The scan knows a declaration, unless its local name is `xmlns` and its prefix is not. -/
theorem declares_eq (ordinary : ∀ p, word = p ++ ":xmlns".toList → p = "xmlns".toList) :
    Tag.declares name = StartTag.isDeclaration word := by
  refine Bool.eq_iff_iff.2 ⟨fun declares => ?_, h.declares⟩
  have pfx := h.writtenPfx?
  have written := h.writtenAs none
  simp only [Tag.declares, Bool.or_eq_true, beq_iff_eq] at declares
  cases found : SamlSeal.Xml.writtenPfx? (String.ofList word) with
  | none =>
    rw [found] at pfx written
    have isXmlns : name.localName = "xmlns" := by
      rcases declares with eq | eq
      · exact absurd (pfx.trans eq) (by decide)
      · exact eq
    rw [written.1, isXmlns]
    decide
  | some p =>
    rw [found] at pfx written
    obtain rfl : p = name.pfx := pfx
    have isXmlns : name.pfx.toList = "xmlns".toList := by
      rcases declares with eq | eq
      · rw [eq]
      · exact ordinary _ (written.1.trans (by simp [eq]))
    have starts : ['x', 'm', 'l', 'n', 's', ':'] <+: word := by
      refine ⟨name.localName.toList, ?_⟩
      rw [written.1, isXmlns]
      rfl
    simp [StartTag.isDeclaration, List.isPrefixOf_iff_prefix.2 starts]

end IsWordOf

/-! ### Attributes -/

/-- Among the words of a tag is none with the local name `xmlns` but `xmlns:xmlns`. -/
def StartTag.Ordinary (words : List (List Char)) : Prop :=
  ∀ p, p ++ ":xmlns".toList ∈ words → p = "xmlns".toList

/-- An attribute that is resolved with the word at its place keeps the prefix in it. -/
theorem standsAs_of_word {ns : Namespaces} (fit : ns.Fit) {word : List Char}
    {x : WrittenName × String} (isWord : IsWordOf word x.1) {uri : Option String}
    (huri : attributeUri? ns x.1 = some uri) (scope : Scope) :
    Attribute.StandsAs ⟨⟨attributePfx scope (some (String.ofList word)) uri, x.1.localName, uri⟩,
      x.2⟩ word := by
  have written := isWord.writtenAs uri
  rw [attributeUri?] at huri
  split at huri
  · next empty =>
    obtain rfl := Option.some.inj huri
    have pfx := isWord.writtenPfx?
    cases found : writtenPfx? (String.ofList word) with
    | none =>
      rw [found] at written
      exact .inl written
    | some p =>
      rw [found] at written pfx
      obtain rfl : p = "" := pfx.trans empty
      exact .inr ⟨rfl, written.1⟩
  next ne =>
  have found := isWord.writtenPfx?_of_ne ne
  rw [found] at written
  split at huri
  · next xml =>
    obtain rfl := Option.some.inj huri
    rw [xml] at written
    exact .inl written
  · obtain ⟨u, bound, rfl⟩ := Option.map_eq_some_iff.1 huri
    have notXml : u ≠ Namespace.xml := by
      obtain ⟨d, hd, rfl⟩ := Option.map_eq_some_iff.1 bound
      exact (fit d (List.mem_of_find?_eq_some hd)).notXml
    have pfx : attributePfx scope (some (String.ofList word)) (some u) = some x.1.pfx := by
      rw [attributePfx, if_neg notXml, Option.bind_some, found, Option.some_or]
    rw [pfx]
    exact .inl written

/-- If the words that are left are ordinary, they are those of the attributes that are left. -/
theorem words_of_ordinary {words : List (List Char)} {as : List (WrittenName × String)}
    (all : List.Forall₂ (fun word a => IsWordOf word a.1) words as)
    (ordinary : StartTag.Ordinary (words.filter (!StartTag.isDeclaration ·))) :
    List.Forall₂ (fun word a => IsWordOf word a.1) (words.filter (!StartTag.isDeclaration ·))
      (as.filter (!Tag.declares ·.1)) := by
  induction all with
  | nil => exact .nil
  | @cons word a words as head _ ih =>
    rw [List.filter_cons] at ordinary ⊢
    rw [List.filter_cons]
    cases declaration : StartTag.isDeclaration word with
    | true =>
      simp only [declaration, head.declares declaration, Bool.not_true, Bool.false_eq_true,
        if_false] at ordinary ⊢
      exact ih ordinary
    | false =>
      simp only [declaration, Bool.not_false, if_true] at ordinary ⊢
      have same := head.declares_eq fun p eq => ordinary p (eq ▸ List.mem_cons_self)
      simp only [same, declaration, Bool.not_false, if_true]
      exact .cons head (ih fun p mem => ordinary p (List.mem_cons_of_mem _ mem))

/-- The attributes of an ordinary tag stand as they are written, in the same order. -/
theorem standAs_of_resolveAttributes? {ns : Namespaces} (fit : ns.Fit) {scope : Scope}
    {words : List (List Char)} {as : List (WrittenName × String)}
    (all : List.Forall₂ (fun word a => IsWordOf word a.1) words as) {resolved : List Attribute}
    (h : resolveAttributes? ns scope (words.map String.ofList) as = some resolved) :
    List.Forall₂ (fun word a => a.StandsAs word) words resolved := by
  obtain ⟨uris, huris, h⟩ := Option.bind_eq_some_iff.1 h
  obtain ⟨-, h⟩ := Option.ite_none_right_eq_some.1 h
  rw [List.length_map, if_pos all.length_eq] at h
  rw [← Option.some.inj h]
  have found := forall₂_of_mapM huris
  clear * - fit all found
  induction all generalizing uris with
  | nil => exact .nil
  | cons head _ ih =>
    cases found with
    | cons huri rest => exact .cons (standsAs_of_word fit head huri scope) (ih _ rest)

/-! ### Elements -/

/-- The name of an element and its attributes are written in its start tag as they are kept.  There
is such a tag, and it makes no difference how it is cut into words. -/
structure Element.KeepsPrefixes (e : Element) (source : List Char) : Prop where
  written : ∃ word words, StartTag.Written word words source
  name : ∀ {word words}, StartTag.Written word words source → e.name.WrittenAs word
  attributes : ∀ {word words}, StartTag.Written word words source → StartTag.Ordinary words →
    List.Forall₂ (fun word a => a.StandsAs word) (words.filter (!StartTag.isDeclaration ·))
      e.attributes

/-- The items of some markup in the order of the nodes that they become.  Only elements have
something inside. -/
def Markup.items : Markup → List Item
  | .nil => []
  | .node (.element source tag) inner next => .element source tag :: (items inner ++ items next)
  | .node item _ next => item :: items next

theorem Markup.All.mem_items {P : Item → Prop} {m : Markup} (all : m.All P) :
    ∀ item ∈ m.items, P item := by
  induction m with
  | nil =>
    intro item mem
    cases mem
  | node item inner next ihInner ihNext =>
    obtain ⟨here, inside, after⟩ := all_node.1 all
    cases item with
    | element source tag =>
      exact List.forall_mem_cons.2
        ⟨here, List.forall_mem_append.2 ⟨ihInner inside, ihNext after⟩⟩
    | text content => exact List.forall_mem_cons.2 ⟨here, ihNext after⟩
    | comment content => exact List.forall_mem_cons.2 ⟨here, ihNext after⟩
    | instruction target data => exact List.forall_mem_cons.2 ⟨here, ihNext after⟩

/-- What is said of elements, for any node and the item that it is made of. -/
def Kind.KeepsPrefixes (item : Item) (k : Kind) : Prop :=
  ∀ e, k = .element e → ∃ source tag, item = .element source tag ∧ e.KeepsPrefixes source

/-- Every element that reading makes keeps its prefixes. -/
theorem Markup.Resolved.keepsPrefixes {m : Markup} {ns : Namespaces} {outer : Scope}
    {f : Forest Kind} (h : Resolved ns outer m f) (spelled : m.All Item.Spelled)
    (fits : m.All Item.Fits) (fit : ns.Fit) : List.Forall₂ Kind.KeepsPrefixes m.items f.labels := by
  induction h with
  | nil => exact .nil
  | leaf hk _ ih =>
    obtain ⟨-, -, snext⟩ := all_node.1 spelled
    obtain ⟨-, -, fnext⟩ := all_node.1 fits
    have rest := ih snext fnext fit
    cases hk <;> exact .cons (fun e he => nomatch he) rest
  | @element _ _ _ source tag _ _ _ _ uri _ _ declared _ scanned resolved _ _ ihInner ihNext =>
    obtain ⟨⟨word, words, written, isWord, all⟩, sinner, snext⟩ := all_node.1 spelled
    obtain ⟨item, finner, fnext⟩ := all_node.1 fits
    obtain rfl := Option.some.inj ((StartTag.scan_of_written written).symm.trans scanned)
    have inside := fit.extend (Tag.declarations?_fit item.attributes declared)
    refine .cons ?_ (List.rel_append (ihInner sinner finner inside) (ihNext snext fnext fit))
    intro e he
    obtain rfl := Kind.element.inj he
    refine ⟨source, tag, rfl, ⟨word, words, written⟩, fun other => ?_, fun other ordinary => ?_⟩
    · rw [(written.unique other).1]
      exact isWord.writtenAs uri
    · have same := (written.unique other).2
      have left : StartTag.Ordinary (words.filter (!StartTag.isDeclaration ·)) :=
        fun p mem => ordinary p (List.mem_of_mem_filter (same ▸ mem))
      rw [same]
      exact standAs_of_resolveAttributes? inside (words_of_ordinary all left) resolved

namespace Document

/-- A document that was read keeps the prefixes that are written in it: every element stands for a
start tag of the text, which is written with the prefix of the element, if it has one, and, in the
same order, with the prefixes of the attributes that have a namespace.  The attributes of a tag are
excepted if one of them has the local name `xmlns` and a prefix other than `xmlns`. -/
theorem prefixes_of_parse {text : String} {d : Document} (h : parse text = .ok d) :
    ∃ m, Markup.read? text.toList = some m ∧ ∀ x e, d.element? x = some e →
      ∃ source tag, m.items[x - 1]? = some (.element source tag) ∧ source <:+ text.toList ∧
        e.KeepsPrefixes source := by
  obtain ⟨m, f, hm, hf, rfl⟩ := parse_cases h
  refine ⟨m, hm, fun x e he => ?_⟩
  have keeps := hf.keepsPrefixes (Markup.all_read? Token.Maker.spelled hm)
    (Markup.all_read? Token.Maker.fits hm) .nil
  obtain ⟨i, rfl⟩ := Nat.exists_eq_succ_of_ne_zero ((Linked.ofForest f).ne_root he)
  have label := (kind?_ofForest f i).symm.trans (kind?_of_element? he)
  obtain ⟨lt, eq⟩ := List.getElem?_eq_some_iff.1 label
  have lt' : i < m.items.length := keeps.length_eq ▸ lt
  have here := keeps.get lt' lt
  simp only [List.get_eq_getElem, eq] at here
  obtain ⟨source, tag, item, kept⟩ := here e rfl
  have mem : m.items[i]? = some (.element source tag) :=
    (List.getElem?_eq_getElem lt').trans (congrArg some item)
  have stands : Item.StandsIn text.toList (.element source tag) :=
    (Markup.sources_of_read? hm).mem_items _ (List.mem_of_getElem? mem)
  exact ⟨source, tag, mem, stands, kept⟩

/-- A document with two prefixes for one namespace. -/
def shared : Document := ofForest
  (.node (.element ⟨⟨some "q", "a", some "urn:u"⟩,
    [⟨⟨some "q", "b", some "urn:u"⟩, "v"⟩, ⟨⟨some "p", "c", some "urn:u"⟩, "w"⟩],
    [⟨"p", "urn:u"⟩, ⟨"q", "urn:u"⟩]⟩) .nil .nil)

/-- Both prefixes are kept where they are written. -/
theorem prefixes_of_parse_shared :
    parse "<q:a xmlns:p='urn:u' q:b='v' xmlns:q='urn:u' p:c='w'/>" = .ok shared ∧
    ∀ e ∈ shared.element? 1, ∃ source,
      source <:+ "<q:a xmlns:p='urn:u' q:b='v' xmlns:q='urn:u' p:c='w'/>".toList ∧
        e.KeepsPrefixes source := by
  have read : parse "<q:a xmlns:p='urn:u' q:b='v' xmlns:q='urn:u' p:c='w'/>" = .ok shared :=
    parse_eq_ok (by decide +kernel)
  refine ⟨read, fun e he => ?_⟩
  obtain ⟨m, -, keeps⟩ := prefixes_of_parse read
  obtain ⟨source, tag, -, stands, kept⟩ := keeps 1 e he
  exact ⟨source, stands, kept⟩

/-- A document in which an attribute got another prefix than the one that is written. -/
def crossed : Document := ofForest
  (.node (.element ⟨⟨none, "a", some "urn:d"⟩, [⟨⟨some "p", "b", some "urn:u"⟩, "v"⟩],
    [⟨"", "urn:d"⟩, ⟨"p", "urn:u"⟩, ⟨"q", "urn:u"⟩]⟩) .nil .nil)

/-- An attribute `q:xmlns` declares the default namespace, but is taken for an attribute when the
prefixes are looked for.  So `q:b` is kept as `p:b`. -/
theorem prefixes_crossed :
    parse "<a xmlns:p=\"urn:u\" xmlns:q=\"urn:u\" q:xmlns=\"urn:d\" q:b=\"v\"/>" = .ok crossed ∧
    StartTag.Written "a".toList
      ["xmlns:p".toList, "xmlns:q".toList, "q:xmlns".toList, "q:b".toList]
      "<a xmlns:p=\"urn:u\" xmlns:q=\"urn:u\" q:xmlns=\"urn:d\" q:b=\"v\"/>".toList ∧
    ∀ e ∈ crossed.element? 1, ∃ a, e.attributes = [a] ∧ a.name.uri = some "urn:u" ∧
      a.name.localName = "b" ∧ a.name.pfx = some "p" := by
  refine ⟨parse_eq_ok (by decide +kernel), ?_, ?_⟩
  · have none : StartTag.IsGaps [] := List.forall_mem_nil _
    have blank : StartTag.IsGaps [' '] := by simp [StartTag.IsGaps, StartTag.isGap]
    -- the attributes are put in front of the end of the tag one by one
    have cons (word value : List Char) {rest : List Char} {words : List (List Char)}
        (isWord : StartTag.IsWord word) (inside : '"' ∉ value)
        (more : StartTag.Attributes words rest) : StartTag.Attributes (word :: words)
          (' ' :: (word ++ '=' :: '"' :: (value ++ '"' :: rest))) :=
      .cons (List.cons_ne_nil _ _) blank isWord none none (.inl rfl) inside more
    have closes : StartTag.Attributes [] "/>".toList := .close none
    have fourth := cons "q:b".toList "v".toList (by decide +kernel)
      (by decide +kernel) closes
    have third := cons "q:xmlns".toList "urn:d".toList (by decide +kernel)
      (by decide +kernel) fourth
    have second := cons "xmlns:q".toList "urn:u".toList (by decide +kernel)
      (by decide +kernel) third
    have first := cons "xmlns:p".toList "urn:u".toList (by decide +kernel)
      (by decide +kernel) second
    exact .intro (by decide +kernel) first
  · intro e he
    obtain rfl := Option.some.inj he
    exact ⟨_, rfl, rfl, rfl, rfl⟩

end Document

end SamlSeal.Xml
