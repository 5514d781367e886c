import SamlSeal.Proofs.StartTags
import SamlSeal.Proofs.Table

/-!
# What reading guarantees

Names, comments and processing instructions of a document that was read can be written down again
without being taken for something else.  `Kind.Sound` says what this means for one node:

* names and prefixes are made of name characters, without a colon (`IsNCName`, `IsPfx`),
* no attribute looks like a namespace declaration, and nothing binds the prefix `xml`,
* a comment and the data of a processing instruction do not hold what would end them
  (`Unbroken`).

All nodes of a document that was read are sound, and stay so when texts are set and attributes get
values (`Revised.sound`).
-/

namespace SamlSeal.Xml

/-! ### Texts that end where they should -/

/-- A text does not hold `stop`, not even together with the first characters of a `stop` that comes
after it. -/
def Unbroken (stop cs : List Char) : Prop :=
  ∀ rest, splitAt? stop (cs ++ (stop ++ rest)) = some (cs, rest)

/-- Where a text is cut does not depend on what comes after the cut. -/
theorem unbroken_of_splitAt? {stop cs raw rest : List Char} (nonempty : stop ≠ [])
    (h : splitAt? stop cs = some (raw, rest)) : Unbroken stop raw := by
  induction cs generalizing raw with
  | nil =>
    obtain ⟨empty, -⟩ := Option.ite_none_right_eq_some.1 h
    exact absurd (List.isEmpty_iff.1 empty) nonempty
  | cons c cs ih =>
    have whole := splitAt?_eq_append h
    rw [splitAt?] at h
    split at h
    · obtain ⟨rfl, -⟩ := Prod.mk.inj (Option.some.inj h)
      intro after
      cases stop with
      | nil => exact absurd rfl nonempty
      | cons a stop =>
        have here : (a :: stop).isPrefixOf (a :: (stop ++ after)) = true :=
          List.isPrefixOf_iff_prefix.2 (List.prefix_append (a :: stop) after)
        rw [List.nil_append, List.cons_append, splitAt?, if_pos here, ← List.cons_append,
          List.drop_left]
    · next no =>
      obtain ⟨⟨raw', rest'⟩, hr, eq⟩ := Option.map_eq_some_iff.1 h
      obtain ⟨rfl, rfl⟩ := Prod.mk.inj eq
      intro after
      -- the first characters of the text and `stop` decide whether `stop` stands there
      have no' : ¬ stop.isPrefixOf (c :: (raw' ++ (stop ++ after))) = true := by
        rw [List.isPrefixOf_iff_prefix] at no ⊢
        intro here
        have start : c :: (raw' ++ stop) <+: c :: (raw' ++ (stop ++ after)) :=
          ⟨after, by simp⟩
        have within := List.prefix_of_prefix_length_le here start (by simp; omega)
        rw [whole] at no
        exact no (within.trans ⟨rest', by simp⟩)
      rw [List.cons_append, splitAt?, if_neg no', ih hr after]
      rfl

theorem Unbroken.append_inj {stop a b r r' : List Char} (ha : Unbroken stop a)
    (hb : Unbroken stop b) (h : a ++ (stop ++ r) = b ++ (stop ++ r')) : a = b ∧ r = r' := by
  have eq := ha r
  rw [h, hb r'] at eq
  obtain ⟨rfl, rfl⟩ := Prod.mk.inj (Option.some.inj eq)
  exact ⟨rfl, rfl⟩

/-- A processing instruction can be told from what comes after it. -/
structure InstructionSound (target : String) (data : Option String) : Prop where
  target_ne : target ≠ ""
  target_chars : ∀ c ∈ target.toList, isNameChar c = true
  data_unbroken : ∀ s ∈ data, Unbroken ['?', '>'] s.toList

/-! ### Tokens and markup -/

/-- What a node of some markup has to satisfy. -/
def Item.Sound : Item → Prop
  | .element source tag => tag.name.Sound ∧ (∀ a ∈ tag.attributes, a.1.Sound) ∧
      ∀ written, StartTag.scan source = some written →
        (writtenPfx? written.name).getD "" = tag.name.pfx
  | .text _ => True
  | .comment content => Unbroken ['-', '-', '>'] content.toList
  | .instruction target data => InstructionSound target data

namespace Token

theorem comment?_sound {cs rest : List Char} {t : Token} (h : comment? cs = some (t, rest)) :
    t.Makes Item.Sound := by
  obtain ⟨raw, rfl, cut, -⟩ := comment?_cases h
  rw [Makes, Item.Sound, String.toList_ofList]
  exact unbroken_of_splitAt? (by simp) cut

theorem instruction?_sound {cs rest : List Char} {t : Token}
    (h : instruction? cs = some (t, rest)) : t.Makes Item.Sound := by
  obtain ⟨raw, rfl, -, starts, cut, -⟩ := instruction?_cases h
  refine ⟨?_, ?_, ?_⟩
  · intro empty
    rw [String.ofList_eq_empty_iff] at empty
    rw [empty] at starts
    cases starts
  · intro c hc
    rw [String.toList_ofList] at hc
    exact List.mem_takeWhile_imp hc
  · intro s hs
    split at hs
    · cases hs
    · obtain rfl := Option.some.inj hs
      rw [String.toList_ofList]
      exact unbroken_of_splitAt? (by simp) cut

/-- The scan of a start tag finds the word that its name was read from. -/
theorem start?_sound {cs rest : List Char} {t : Token} (h : start? cs = some (t, rest)) :
    t.Makes Item.Sound := by
  obtain ⟨name, as, closed, rfl, -⟩ := start?_cases h
  obtain ⟨word, words, written, isWord, all⟩ := start?_spelled h
  refine ⟨isWord.sound, fun a ha => ?_, fun found scanned => ?_⟩
  · obtain ⟨_, -, isWord⟩ := exists_of_forall₂ all ha
    exact isWord.sound
  · obtain rfl := Option.some.inj ((StartTag.scan_of_written written).symm.trans scanned)
    exact isWord.writtenPfx?

theorem Maker.sound : Maker Item.Sound where
  start := start?_sound
  comment := comment?_sound
  instruction := instruction?_sound
  text _ _ _ := trivial
  literal _ := trivial
  join _ _ := trivial

end Token

/-! ### Names in their namespaces -/

/-- What an element has to satisfy. -/
structure Element.Sound (e : Element) : Prop where
  pfx : IsPfx (e.name.pfx.getD "")
  localName : IsNCName e.name.localName
  attributes : ∀ a ∈ e.attributes, IsNCName a.name.localName ∧ a.name.localName ≠ "xmlns"
  declarations : ∀ d ∈ e.declarations, IsPfx d.pfx

/-- What a node has to satisfy.  No node stands for a document but node 0. -/
def Kind.Sound : Kind → Prop
  | .document => False
  | .element e => e.Sound
  | .text _ => True
  | .comment content => Unbroken ['-', '-', '>'] content.toList
  | .instruction target data => InstructionSound target data

/-- All bound prefixes can be bound. -/
def Namespaces.Sound (ns : Namespaces) : Prop := ∀ d ∈ ns, IsPfx d.pfx

theorem Tag.declarations?_sound {as : List (WrittenName × String)} {own : Namespaces}
    (sounds : ∀ a ∈ as, a.1.Sound) (h : declarations? as = some own) : own.Sound := by
  intro d hd
  obtain ⟨a, ha, declared⟩ := mem_declarations? h hd
  obtain ⟨-, -, ⟨notXml, rfl⟩ | rfl⟩ := declaration?_cases declared
  · exact ⟨notXml, .inr (sounds a ha).localName⟩
  · exact isPfx_empty

namespace Namespaces

theorem Sound.extend {around own : Namespaces} (ha : around.Sound) (ho : own.Sound) :
    (extend around own).Sound := by
  unfold Namespaces.extend
  split
  · exact ha
  · refine List.foldlRecOn around _ (motive := Sound) ho fun ns hns d hd => ?_
    split
    · exact hns
    · intro d' hd'
      rcases List.mem_append.1 hd' with hd' | hd'
      · exact hns d' hd'
      · rw [List.mem_singleton.1 hd']
        exact ha d hd

theorem Sound.nil : Namespaces.Sound [] := List.forall_mem_nil _

theorem Sound.bind {s : Scope} (hs : Namespaces.Sound s) {d : Declaration} (hd : IsPfx d.pfx) :
    Namespaces.Sound (s.bind d) := by
  intro d' hd'
  rcases List.mem_cons.1 hd' with rfl | hd'
  · exact hd
  · exact hs d' (List.mem_filter.1 hd').1

theorem Sound.toScope {ns : Namespaces} (h : ns.Sound) : Namespaces.Sound ns.toScope :=
  List.foldlRecOn _ _ (motive := Sound) .nil fun _ hs d hd =>
    hs.bind (h d (List.mem_filter.1 hd).1)

theorem Sound.declare {s : Scope} {ds : List Declaration} (hs : Namespaces.Sound s)
    (hds : Namespaces.Sound ds) : Namespaces.Sound (s.declare ds) := by
  refine List.foldlRecOn ds _ (motive := Sound) hs fun s hs d hd => ?_
  split
  · exact fun d' hd' => hs d' (List.mem_filter.1 hd').1
  · exact hs.bind (hds d hd)

theorem Sound.changes {around inside : Scope} (h : Namespaces.Sound inside) :
    Namespaces.Sound (around.changes inside) := by
  intro d hd
  rcases List.mem_append.1 hd with hd | hd
  · exact h d (Sorting.mem_sort.1 (List.mem_filter.1 hd).1)
  · split at hd
    · rw [List.mem_singleton.1 hd]
      exact isPfx_empty
    · cases hd

/-- Only what can be bound is found. -/
theorem Sound.isPfx {s : Scope} (h : Namespaces.Sound s) {p uri : String}
    (found : s.uri? p = some uri) : IsPfx p := by
  obtain ⟨d, hd, -⟩ := Option.map_eq_some_iff.1 found
  have eq : d.pfx = p := by simpa using List.find?_some hd
  exact eq ▸ h d (List.mem_of_find?_eq_some hd)

end Namespaces

/-- The prefix `xml` is never bound, so no element has it. -/
theorem isPfx_of_elementUri? {ns : Namespaces} {name : WrittenName} {uri : Option String}
    (hns : ns.Sound) (h : elementUri? ns name = some uri) : IsPfx name.pfx := by
  obtain ⟨-, h⟩ := Option.ite_none_left_eq_some.1 h
  split at h
  · next found => exact hns.isPfx found
  · obtain ⟨empty, -⟩ := Option.ite_none_right_eq_some.1 h
    rw [empty]
    exact isPfx_empty

theorem Item.Leaf.sound {item : Item} {kind : Kind} (hk : item.Leaf kind) (h : item.Sound) :
    kind.Sound := by
  cases hk with
  | text => trivial
  | comment => exact h
  | instruction => exact h

theorem Markup.Resolved.sound {m : Markup} {around : Namespaces} {outer : Scope} {f : Forest Kind}
    (h : Resolved around outer m f) (hm : m.All Item.Sound) (ha : around.Sound) :
    ∀ k ∈ f.labels, k.Sound := by
  induction h with
  | nil => exact List.forall_mem_nil _
  | leaf hk _ ih =>
    obtain ⟨item, -, next⟩ := all_node.1 hm
    exact List.forall_mem_cons.2 ⟨hk.sound item, ih next ha⟩
  | element declared named scanned resolved _ _ ihInner ihNext =>
    obtain ⟨⟨sound, sounds, agrees⟩, inner, next⟩ := all_node.1 hm
    have inside := ha.extend (Tag.declarations?_sound sounds declared)
    refine List.forall_mem_cons.2 ⟨⟨?_, sound.localName, fun a ha => ?_, inside.toScope.changes⟩,
      List.forall_mem_append.2 ⟨ihInner inner inside, ihNext next ha⟩⟩
    · rw [agrees _ scanned]
      exact isPfx_of_elementUri? inside named
    · -- what looks like a declaration was taken for one
      obtain ⟨x, hx, -, eq, -⟩ := (resolveAttributes?_cases resolved).1 a ha
      obtain ⟨mem, other⟩ := List.mem_filter.1 hx
      rw [eq]
      refine ⟨(sounds x mem).localName, ?_⟩
      simp only [Tag.declares, Bool.not_eq_true', Bool.or_eq_false_iff, beq_eq_false_iff_ne] at other
      exact other.2

/-! ### Documents -/

namespace Document

variable {d d' : Document}

/-- All nodes of a document but node 0 are sound, also those that were taken out of the tree. -/
def Sound (d : Document) : Prop := ∀ id k, id ≠ root → d.kind? id = some k → k.Sound

theorem Sound.element (hd : d.Sound) (linked : d.Linked) {id : NodeId} {e : Element}
    (h : d.element? id = some e) : e.Sound :=
  hd id _ (linked.ne_root h) (kind?_of_element? h)

theorem Sound.appendChild (hd : d.Sound) {parent : NodeId} (hp : parent < d.size) {kind : Kind}
    (hk : kind.Sound) : (d.appendChild parent kind).Sound := by
  intro id k ne h
  rw [kind?_appendChild_eq hp] at h
  split at h
  · rwa [← Option.some.inj h]
  · exact hd id k ne h

theorem Sound.graft (hd : d.Sound) {parent : NodeId} (hp : parent < d.size) {f : Forest Kind}
    (hf : ∀ k ∈ f.labels, k.Sound) : (d.graft parent f).Sound := by
  induction f generalizing d parent with
  | nil => exact hd
  | node kind inner next ihInner ihNext =>
    simp only [Forest.labels, List.mem_cons, List.mem_append, or_imp, forall_and, forall_eq] at hf
    obtain ⟨hk, hinner, hnext⟩ := hf
    have size : (d.appendChild parent kind).size = d.size + 1 := size_appendChild d parent kind
    refine ihNext (ihInner (hd.appendChild hp hk) ?_ hinner) ?_ hnext
    · rw [size]
      exact Nat.lt_succ_self _
    · rw [size_graft, size]
      exact Nat.lt_of_lt_of_le (Nat.lt_succ_of_lt hp) (Nat.le_add_right _ _)

theorem Sound.parse {text : String} (h : parse text = .ok d) : d.Sound := by
  obtain ⟨m, f, hm, hf, rfl⟩ := parse_cases h
  have empty : Document.empty.Sound := by
    intro id k ne h
    cases id with
    | zero => exact absurd rfl ne
    | succ id => cases h
  exact empty.graft Linked.empty.size_pos (hf.sound (Markup.all_read? Token.Maker.sound hm) .nil)

theorem Sound.setText (hd : d.Sound) {id : NodeId} {content : String}
    (h : d.setText id content = .ok d') : d'.Sound := by
  intro x k ne hk
  rcases kind?_setText_cases h hk with rfl | hk
  · trivial
  · exact hd x k ne hk

/-- Setting an attribute makes no name but that of the attribute. -/
theorem mem_set {name value : String} {as : List Attribute} {a : Attribute}
    (h : a ∈ Attribute.set name value as) :
    a.name = QName.plain name ∨ ∃ b ∈ as, a.name = b.name := by
  induction as with
  | nil =>
    rw [List.mem_singleton.1 h]
    exact .inl rfl
  | cons b as ih =>
    rw [Attribute.set] at h
    split at h
    · rcases List.mem_cons.1 h with rfl | h
      · exact .inr ⟨b, List.mem_cons_self, rfl⟩
      · exact .inr ⟨a, List.mem_cons_of_mem _ h, rfl⟩
    · rcases List.mem_cons.1 h with rfl | h
      · exact .inr ⟨a, List.mem_cons_self, rfl⟩
      · rcases ih h with eq | ⟨c, hc, eq⟩
        · exact .inl eq
        · exact .inr ⟨c, List.mem_cons_of_mem _ hc, eq⟩

theorem Sound.setAttribute (hd : d.Sound) (linked : d.Linked) {id : NodeId} {name value : String}
    (hname : IsNCName name) (ne : name ≠ "xmlns") (h : d.setAttribute id name value = .ok d') :
    d'.Sound := by
  obtain ⟨e, he, rfl⟩ := setAttribute_cases h
  intro x k root hk
  rw [kind?_replaceElement he] at hk
  split at hk
  · obtain rfl := Option.some.inj hk
    obtain ⟨pfx, localName, attributes, declarations⟩ := hd.element linked he
    refine ⟨pfx, localName, fun a ha => ?_, declarations⟩
    rcases mem_set ha with eq | ⟨b, hb, eq⟩
    · rw [eq]
      exact ⟨hname, ne⟩
    · rw [eq]
      exact attributes b hb
  · exact hd x k root hk

/-- The documents that were read and then changed by setting texts and attributes, as long as the
names of the attributes have no colon and are no declarations. -/
inductive Revised : Document → Prop
  | parse {text : String} {d : Document} (h : parse text = .ok d) : Revised d
  | setText {d d' : Document} (hd : Revised d) {id : NodeId} {content : String}
    (h : d.setText id content = .ok d') : Revised d'
  | setAttribute {d d' : Document} (hd : Revised d) {id : NodeId} {name value : String}
    (hname : IsNCName name) (ne : name ≠ "xmlns") (h : d.setAttribute id name value = .ok d') :
    Revised d'

theorem Revised.reachable (h : d.Revised) : d.Reachable := by
  induction h with
  | parse h => exact .parse h
  | setText _ h ih => exact .setText ih h
  | setAttribute _ _ _ h ih => exact .setAttribute ih h

theorem Revised.sound (h : d.Revised) : d.Sound := by
  induction h with
  | parse h => exact .parse h
  | setText _ h ih => exact ih.setText h
  | setAttribute hd hname ne h ih => exact ih.setAttribute hd.reachable.linked hname ne h

end Document

end SamlSeal.Xml
