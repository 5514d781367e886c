import SamlSeal.Proofs.Scope
import SamlSeal.Proofs.Spelling

/-!
# Trees that are written and read again

A written tree can be read, and what is read is known in advance.

* `Spells`: characters that write a tree, and the markup that they are read as.  Elements without
  content may be closed at once or not, empty texts leave no trace, and between the outermost nodes
  there may be line breaks.
* `Spells.read?`: reading gives this markup.
* `Forest.reread`: the tree that the markup stands for, given the namespaces around it.  Names and
  attributes stay as they are, and the declarations of an element are worked out anew.
* `Spells.resolved`: the names are resolved to this tree, if everything is bound as the tree says
  (`Stands`).
-/

namespace SamlSeal.Xml

open Canonical

/-! ### Start tags of elements -/

/-- A declaration as a name and a value. -/
def Declaration.spelled (d : Declaration) : WrittenName × String :=
  (if d.pfx = "" then ⟨"", "xmlns"⟩ else ⟨"xmlns", d.pfx⟩, d.uri)

/-- An attribute as a name and a value. -/
def Attribute.spelled (a : Attribute) : WrittenName × String :=
  (⟨a.name.pfx.getD "", a.name.localName⟩, a.value)

/-- The start tag of an element, declarations first. -/
def Element.tag (e : Element) : Tag where
  name := ⟨elementPfx e, e.name.localName⟩
  attributes := e.declarations.map Declaration.spelled ++ e.attributes.map Attribute.spelled

theorem QName.print_eq (q : QName) :
    (⟨q.pfx.getD "", q.localName⟩ : WrittenName).print = q.qualified.toList := by
  rw [WrittenName.print, QName.qualified]
  cases q.pfx with
  | none => rfl
  | some p => by_cases empty : p = "" <;> simp [empty]

theorem Declaration.write_eq (d : Declaration) : d.write = printAttribute d.spelled := by
  by_cases empty : d.pfx = ""
  · simp [Declaration.write, Declaration.spelled, printAttribute, WrittenName.print, empty]
  · simp [Declaration.write, Declaration.spelled, printAttribute, WrittenName.print, empty]

theorem Attribute.write_eq (a : Attribute) : a.write = printAttribute a.spelled := by
  rw [Attribute.write, writeAttribute, printAttribute, Attribute.spelled, QName.print_eq]

theorem Element.writeOpening_eq (e : Element) : e.writeOpening = e.tag.print := by
  rw [Element.writeOpening, Tag.print, Element.tag, elementPfx, QName.print_eq, List.flatMap_append,
    List.flatMap_map, List.flatMap_map, List.append_assoc, funext Declaration.write_eq,
    funext Attribute.write_eq]

/-! ### Written trees -/

/-- Whether a node of some markup is a text. -/
def Item.isText : Item → Bool
  | .text _ => true
  | _ => false

/-- `Spells outer f m cs rest`: the characters `cs` write the tree `f` in front of `rest`, and `m`
is the markup of it.  If `outer`, nothing is around the tree. -/
inductive Spells : Bool → Forest Kind → Markup → List Char → List Char → Prop
  | nil {outer : Bool} {rest : List Char} : Spells outer .nil .nil rest rest
  | closed {outer : Bool} {e : Element} {next : Forest Kind} {m : Markup} {cs rest : List Char}
    (fits : e.tag.Fits) (hn : Spells outer next m cs rest) :
    Spells outer (.node (.element e) .nil next)
      (.node (.element (e.tag.print ++ '/' :: '>' :: cs) e.tag) .nil m)
      (e.tag.print ++ '/' :: '>' :: cs) rest
  | element {outer : Bool} {e : Element} {inner next : Forest Kind} {mi m : Markup}
    {content cs rest : List Char} (fits : e.tag.Fits)
    (hi : Spells false inner mi content (['<', '/'] ++ e.tag.name.print ++ ['>'] ++ cs))
    (hn : Spells outer next m cs rest) :
    Spells outer (.node (.element e) inner next)
      (.node (.element (e.tag.print ++ '>' :: content) e.tag) mi m)
      (e.tag.print ++ '>' :: content) rest
  | text {s : String} {next : Forest Kind} {m : Markup} {cs rest : List Char} (ne : s ≠ "")
    (chars : ∀ c ∈ s.toList, isChar c = true) (apart : ∀ i ∈ m.roots.head?, i.isText = false)
    (hn : Spells false next m cs rest) :
    Spells false (.node (.text s) .nil next) (.node (.text s) .nil m) (Escape.text s.toList ++ cs) rest
  | empty {next : Forest Kind} {m : Markup} {cs rest : List Char}
    (hn : Spells false next m cs rest) : Spells false (.node (.text "") .nil next) m cs rest
  | comment {outer : Bool} {s : String} {next : Forest Kind} {m : Markup} {cs rest : List Char}
    (fits : CommentFits s) (hn : Spells outer next m cs rest) :
    Spells outer (.node (.comment s) .nil next) (.node (.comment s) .nil m)
      (['<', '!', '-', '-'] ++ s.toList ++ ['-', '-', '>'] ++ cs) rest
  | instruction {outer : Bool} {target : String} {data : Option String} {next : Forest Kind}
    {m : Markup} {cs rest : List Char} (fits : InstructionFits target data)
    (notXml : target ≠ "xml") (hn : Spells outer next m cs rest) :
    Spells outer (.node (.instruction target data) .nil next)
      (.node (.instruction target data) .nil m)
      (['<', '?'] ++ target.toList ++ writeData data ++ ['?', '>'] ++ cs) rest
  | lineBreak {f : Forest Kind} {m : Markup} {cs rest : List Char}
    (stop : ∀ c ∈ cs.head?, c = '<') (hn : Spells true f m cs rest) :
    Spells true f m ('\n' :: cs) rest

/-! ### Reading the markup -/

namespace Token

/-- Cutting a text into tokens does not depend on the bound. -/
theorem atMost?_mono {n k : Nat} {cs : List Char} {ts : List Token} (h : atMost? n cs = some ts)
    (le : n ≤ k) : atMost? k cs = some ts := by
  induction n generalizing k cs ts with
  | zero =>
    cases cs with
    | nil =>
      cases k <;> exact h
    | cons c cs => cases h
  | succ n ih =>
    cases cs with
    | nil => cases k <;> exact h
    | cons c cs =>
      obtain ⟨k, rfl⟩ := Nat.exists_eq_add_of_le' (Nat.le_trans (Nat.succ_pos n) le)
      obtain ⟨⟨t, rest⟩, ht, h⟩ := Option.bind_eq_some_iff.1 h
      obtain ⟨ts', hts, h⟩ := Option.bind_eq_some_iff.1 h
      rw [atMost?, ht, ← h]
      simp only [bind, Option.bind_some, ih hts (Nat.le_of_succ_le_succ le)]

theorem all?_cons {cs rest : List Char} {t : Token} {ts : List Token}
    (next : next? cs = some (t, rest)) (shorter : rest.length < cs.length)
    (h : all? rest = some ts) : all? cs = some (t :: ts) := by
  cases cs with
  | nil => cases shorter
  | cons c cs =>
    have later : atMost? cs.length rest = some ts :=
      atMost?_mono h (Nat.le_of_lt_succ (by simpa using shorter))
    rw [all?, List.length_cons, atMost?, next]
    simp only [bind, Option.bind_some, later]

end Token

namespace Markup

/-- The text can be cut into tokens, which make some markup. -/
def Partial.Reads (cs : List Char) (p : Partial) : Prop :=
  ∃ ts, Token.all? cs = some ts ∧ Partial.ofTokens? ts = some p

theorem Partial.Reads.nil : Partial.Reads [] ⟨.nil, []⟩ := ⟨[], rfl, rfl⟩

theorem Partial.Reads.cons {cs rest : List Char} {t : Token} {p p' : Partial}
    (next : Token.next? cs = some (t, rest)) (shorter : rest.length < cs.length)
    (h : Partial.Reads rest p) (step : Partial.cons? t p = some p') : Partial.Reads cs p' := by
  obtain ⟨ts, all, made⟩ := h
  refine ⟨t :: ts, Token.all?_cons next shorter all, ?_⟩
  rw [ofTokens?, List.foldr_cons, ← ofTokens?, made]
  exact step

/-- White space that stands outside the document element leaves no node. -/
theorem Partial.Reads.lineBreak {cs : List Char} {m : Markup} (stop : ∀ c ∈ cs.head?, c = '<')
    (h : Partial.Reads cs ⟨m, []⟩) : Partial.Reads ('\n' :: cs) ⟨m, []⟩ := by
  have next : Token.next? ('\n' :: cs) = some (.text ['\n'], cs) :=
    Token.next?_text (List.forall_mem_singleton.2 (by decide)) (List.cons_ne_nil '\n' []) stop
  exact h.cons next (Nat.lt_succ_self _) rfl

end Markup

open Markup

theorem consText_of_apart {m : Markup} (apart : ∀ i ∈ m.roots.head?, i.isText = false)
    (s : String) : consText s.toList m = .node (.text s) .nil m := by
  unfold consText
  split
  · cases apart _ rfl
  · rw [String.ofList_toList]

namespace Spells

variable {outer : Bool} {f : Forest Kind} {m : Markup} {cs rest : List Char}

/-- What does not start with a text starts with a bracket. -/
theorem head (h : Spells outer f m cs rest) (inside : outer = false)
    (stop : ∀ c ∈ rest.head?, c = '<') (apart : ∀ i ∈ m.roots.head?, i.isText = false) :
    ∀ c ∈ cs.head?, c = '<' := by
  induction h with
  | nil => exact stop
  | closed | element | comment | instruction =>
    rintro c hc
    exact (Option.some.inj hc).symm
  | text => cases apart _ rfl
  | empty _ ih => exact ih rfl stop apart
  | lineBreak => cases inside

/-- A written tree is read as its markup, in front of what comes after it. -/
theorem reads (h : Spells outer f m cs rest) {around : List (WrittenName × Markup)}
    (place : outer = around.isEmpty) (stop : outer = false → ∀ c ∈ rest.head?, c = '<')
    (hr : Partial.Reads rest ⟨.nil, around⟩) : Partial.Reads cs ⟨m, around⟩ := by
  induction h generalizing around with
  | nil => exact hr
  | closed fits _ ih =>
    refine (ih place stop hr).cons (Token.next?_tag fits (.inr ⟨rfl, rfl⟩)).1 ?_ rfl
    simp [Tag.print]
    omega
  | @element _ e _ _ mi m content cs rest fits _ _ ihInner ihNext =>
    have ends : Partial.Reads (['<', '/'] ++ e.tag.name.print ++ ['>'] ++ cs)
        ⟨.nil, (e.tag.name, m) :: around⟩ := by
      refine (ihNext place stop hr).cons (Token.next?_stop fits.name cs) ?_ rfl
      simp
      omega
    have inside := ihInner rfl (fun _ c hc => (Option.some.inj hc).symm) ends
    refine inside.cons (Token.next?_tag fits (.inl ⟨rfl, rfl⟩)).1 ?_ ?_
    · simp [Tag.print]
      omega
    · simp only [Partial.cons?, if_true]
  | @text s next m cs rest ne chars apart hn ih =>
    have notEmpty : s.toList ≠ [] := fun eq => ne (String.toList_eq_nil_iff.1 eq)
    refine (ih place stop hr).cons
      (Token.next?_text chars notEmpty (hn.head rfl (stop rfl) apart)) ?_ ?_
    · have pos := List.length_pos_iff.2 fun eq => notEmpty (text_eq_nil_iff.1 eq)
      rw [List.length_append]
      omega
    · simp only [Partial.cons?, ← place, textValue_text, consText_of_apart apart, Option.map_some,
        Bool.false_eq_true, if_false]
  | empty _ ih => exact ih place stop hr
  | comment fits _ ih =>
    refine (ih place stop hr).cons (Token.next?_comment fits _) ?_ rfl
    simp
    omega
  | instruction fits notXml _ ih =>
    refine (ih place stop hr).cons (Token.next?_instruction fits notXml _) ?_ rfl
    simp
    omega
  | lineBreak stop' _ ih =>
    obtain rfl : around = [] := List.isEmpty_iff.1 place.symm
    exact (ih place stop hr).lineBreak stop'

theorem countP_isElement (h : Spells outer f m cs rest) :
    m.roots.countP Markup.isElement = f.roots.countP Kind.isElement := by
  have node {i : Item} {k : Kind} (same : Markup.isElement i = k.isElement) {is : List Item}
      {ks : List Kind} (ih : is.countP Markup.isElement = ks.countP Kind.isElement) :
      (i :: is).countP Markup.isElement = (k :: ks).countP Kind.isElement := by
    rw [List.countP_cons, List.countP_cons, ih, same]
  induction h with
  | nil => rfl
  | closed _ _ ih => exact node rfl ih
  | element _ _ _ _ ih => exact node rfl ih
  | text _ _ _ _ ih => exact node rfl ih
  | empty _ ih => exact ih
  | comment _ _ ih => exact node rfl ih
  | instruction _ _ _ ih => exact node rfl ih
  | lineBreak _ _ ih => exact ih

end Spells

/-! ### Reading whole documents -/

/-- What follows a document: nothing, or a line break. -/
def Trailing (rest : List Char) : Prop := rest = [] ∨ rest = ['\n']

theorem Trailing.reads {rest : List Char} (h : Trailing rest) :
    Partial.Reads rest ⟨.nil, []⟩ := by
  rcases h with rfl | rfl
  · exact .nil
  · exact Partial.Reads.nil.lineBreak (by simp)

theorem ofTokens?_of_reads {cs : List Char} {m : Markup} (h : Partial.Reads cs ⟨m, []⟩)
    (single : m.roots.countP isElement = 1) : (Token.all? cs).bind ofTokens? = some m := by
  obtain ⟨ts, all, made⟩ := h
  rw [all, Option.bind_some, ofTokens?, made]
  exact if_pos single

namespace Spells

variable {f : Forest Kind} {m : Markup} {cs rest : List Char}

/-- A written tree does not start as an XML declaration does, nor with a byte order mark. -/
theorem start (h : Spells true f m cs rest) (trailing : Trailing rest) :
    skipMark cs = cs ∧ ['<', '?', 'x', 'm', 'l', ' '].isPrefixOf cs = false := by
  have tag {t : Tag} (fits : t.Fits) (tail : List Char) : skipMark (t.print ++ tail) =
      t.print ++ tail ∧ ['<', '?', 'x', 'm', 'l', ' '].isPrefixOf (t.print ++ tail) = false := by
    obtain ⟨b, bs, eq, start⟩ := fits.name.print_cases
    have ne : ('?' == b) = false := by
      refine beq_eq_false_iff_ne.2 ?_
      rintro rfl
      exact absurd start (by decide)
    rw [Tag.print, eq]
    exact ⟨rfl, by simp [List.isPrefixOf, ne]⟩
  cases h with
  | nil => rcases trailing with rfl | rfl <;> exact ⟨rfl, rfl⟩
  | closed fits => exact tag fits _
  | element fits => exact tag fits _
  | comment => exact ⟨rfl, rfl⟩
  | @instruction _ target data _ _ cs _ fits notXml _ =>
    obtain ⟨-, -, declaration⟩ := Token.span_target fits notXml cs
    refine ⟨rfl, ?_⟩
    simpa [List.isPrefixOf] using declaration
  | lineBreak => exact ⟨rfl, rfl⟩

/-- A written document is read as its markup. -/
theorem read? (h : Spells true f m cs rest) (trailing : Trailing rest)
    (single : f.roots.countP Kind.isElement = 1) : Markup.read? cs = some m := by
  obtain ⟨mark, declaration⟩ := h.start trailing
  have literal : "<?xml ".toList = ['<', '?', 'x', 'm', 'l', ' '] := rfl
  rw [← h.countP_isElement] at single
  have tokens := ofTokens?_of_reads (h.reads rfl (by simp) trailing.reads) single
  rw [Markup.read?, literal, mark, declaration]
  simpa using tokens

/-- An XML declaration in front of a document changes nothing. -/
theorem read?_framed (h : Spells true f m cs ['\n'])
    (single : f.roots.countP Kind.isElement = 1) (bracket : ∀ c ∈ cs.head?, c = '<') :
    Markup.read? ("<?xml version=\"1.0\" encoding=\"UTF-8\"?>\n".toList ++ cs) = some m := by
  have skipped : skipDeclaration? ("version=\"1.0\" encoding=\"UTF-8\"?>\n".toList ++ cs) =
      some ('\n' :: cs) := rfl
  rw [← h.countP_isElement] at single
  have inside : Partial.Reads cs ⟨m, []⟩ := h.reads rfl (by simp) (Trailing.reads (.inr rfl))
  have tokens := ofTokens?_of_reads (inside.lineBreak bracket) single
  have step : Markup.read? ("<?xml version=\"1.0\" encoding=\"UTF-8\"?>\n".toList ++ cs) =
      (skipDeclaration? ("version=\"1.0\" encoding=\"UTF-8\"?>\n".toList ++ cs)).bind
        fun cs => (Token.all? cs).bind ofTokens? := rfl
  rw [step, skipped]
  exact tokens

end Spells

/-! ### Resolving the names -/

/-- What is read of an element that is written where the given namespaces are bound. -/
def Element.reread (ns : Namespaces) (e : Element) : Element where
  name := ⟨if elementPfx e = "" then none else some (elementPfx e), e.name.localName,
    (ns.extend e.declarations).find? (elementPfx e)⟩
  attributes := e.attributes
  declarations := ns.toScope.changes (ns.extend e.declarations).toScope

/-- What is read of a tree that is written where the given namespaces are bound. -/
def Forest.reread (ns : Namespaces) : Forest Kind → Forest Kind
  | .nil => .nil
  | .node kind inner next =>
    match kind with
    | .element e => .node (.element (e.reread ns)) (inner.reread (ns.extend e.declarations))
        (next.reread ns)
    | .text s => if s = "" then next.reread ns else .node (.text s) .nil (next.reread ns)
    | kind => .node kind .nil (next.reread ns)

/-- The name of an attribute is read as what it is, where the given namespaces are bound: it has no
prefix and no namespace, or the prefix `xml`, or another prefix that is bound to its namespace. -/
def Attribute.Stands (ns : Namespaces) (a : Attribute) : Prop :=
  a.name.localName ≠ "xmlns" ∧
    (a.name.uri = none ∧ a.name.pfx = none ∨
      a.name.uri = some Namespace.xml ∧ a.name.pfx = some "xml" ∨
      ∃ p uri, a.name.pfx = some p ∧ a.name.uri = some uri ∧ ns.find? p = some uri ∧
        p ≠ "" ∧ p ≠ "xml" ∧ p ≠ "xmlns" ∧ uri ≠ Namespace.xml)

/-- An element is read as what it is, where the given namespaces are bound, its own declarations
included. -/
structure Element.Stands (ns : Namespaces) (e : Element) : Prop where
  pfx : elementPfx e ≠ "xmlns"
  bound : elementPfx e ≠ "" → ns.find? (elementPfx e) ≠ none
  attributes : ∀ a ∈ e.attributes, a.Stands ns
  distinct : (e.attributes.map fun a => (a.name.uri, a.name.localName)).Nodup
  declarations : ∀ d ∈ e.declarations, d.pfx ≠ "xml" ∧ d.uri ≠ Namespace.xml ∧
    d.uri ≠ Namespace.xmlns
  single : ((e.declarations.filter (·.pfx != "")).map (·.pfx)).Nodup

/-- All elements of a tree are read as what they are, where the given namespaces are bound. -/
inductive Stands : Namespaces → Forest Kind → Prop
  | nil {ns : Namespaces} : Stands ns .nil
  | element {ns : Namespaces} {e : Element} {inner next : Forest Kind}
    (he : e.Stands (ns.extend e.declarations)) (hi : Stands (ns.extend e.declarations) inner)
    (hn : Stands ns next) : Stands ns (.node (.element e) inner next)
  | leaf {ns : Namespaces} {kind : Kind} {inner next : Forest Kind} (hk : kind.isElement = false)
    (hn : Stands ns next) : Stands ns (.node kind inner next)

section Tags

variable {ns : Namespaces} {e : Element} {a : Attribute} {d : Declaration}

theorem Attribute.Stands.declares (h : a.Stands ns) : Tag.declares a.spelled.1 = false := by
  obtain ⟨notDefault, cases⟩ := h
  have notXmlns : a.name.pfx.getD "" ≠ "xmlns" := by
    rcases cases with ⟨-, pfx⟩ | ⟨-, pfx⟩ | ⟨p, -, pfx, -, -, -, -, ne, -⟩
    · rw [pfx]; decide
    · rw [pfx]; decide
    · rwa [pfx]
  simp [Tag.declares, Attribute.spelled, notXmlns, notDefault]

theorem Attribute.Stands.uri (h : a.Stands ns) : attributeUri? ns a.spelled.1 = some a.name.uri := by
  rw [attributeUri?, Attribute.spelled]
  rcases h.2 with ⟨uri, pfx⟩ | ⟨uri, pfx⟩ | ⟨p, u, pfx, uri, found, empty, xml, -, -⟩
  · rw [pfx, uri]; rfl
  · rw [pfx, uri]; rfl
  · rw [pfx, uri, Option.getD_some, if_neg empty, if_neg xml, found]; rfl

/-- The prefix of a written name is found in front of its colon. -/
theorem writtenPfx?_print {n : WrittenName} (h : n.Sound) :
    writtenPfx? (String.ofList n.print) = if n.pfx = "" then none else some n.pfx := by
  have notColon {s : String} (hs : IsNCName s) : ∀ c ∈ s.toList, (c != ':') = true :=
    fun c hc => by simpa using (hs.2 c hc).2
  rw [writtenPfx?, String.toList_ofList, List.span_eq_takeWhile_dropWhile, WrittenName.print]
  by_cases empty : n.pfx = ""
  · rw [if_pos empty, if_pos empty, List.nil_append,
      List.dropWhile_eq_nil_iff.2 (notColon h.localName)]
  · obtain ⟨taken, dropped⟩ := span_of_stop (notColon (h.pfx.resolve_left empty))
      (stop_at (b := ':') (by decide) n.localName.toList)
    rw [if_neg empty, if_neg empty, List.append_assoc, List.singleton_append, taken, dropped]
    simp only [String.ofList_toList]

theorem Attribute.Stands.pfx (h : a.Stands ns) (sound : a.spelled.1.Sound) (scope : Scope) :
    Xml.attributePfx scope (some (String.ofList a.spelled.1.print)) a.name.uri = a.name.pfx := by
  rcases h.2 with ⟨uri, pfx⟩ | ⟨uri, pfx⟩ | ⟨p, u, pfx, uri, -, empty, -, -, notXml⟩
  · rw [pfx, uri]; rfl
  · rw [pfx, uri]; rfl
  · have name : a.spelled.1.pfx = p := by rw [Attribute.spelled, pfx]; rfl
    rw [pfx, uri, Xml.attributePfx, if_neg notXml, Option.bind_some, writtenPfx?_print sound, name,
      if_neg empty]
    rfl

theorem Declaration.declares_spelled (d : Declaration) : Tag.declares d.spelled.1 = true := by
  by_cases empty : d.pfx = "" <;> simp [Tag.declares, Declaration.spelled, empty]

theorem Declaration.isDeclaration_spelled (d : Declaration) :
    StartTag.isDeclaration d.spelled.1.print = true := by
  by_cases empty : d.pfx = "" <;>
    simp [StartTag.isDeclaration, Declaration.spelled, WrittenName.print, empty]

theorem Element.Stands.declaration? (h : e.Stands ns) (hd : d ∈ e.declarations) :
    Tag.declaration? d.spelled.1 d.spelled.2 = some (some d) := by
  obtain ⟨xml, uri, xmlns⟩ := h.declarations d hd
  rw [Tag.declaration?, Declaration.spelled, if_neg xmlns]
  by_cases empty : d.pfx = ""
  · have other : ¬ ((⟨"", "xmlns"⟩ : WrittenName).pfx = "xmlns") := by decide
    rw [if_pos empty, if_neg other, if_neg uri, ← empty]
  · rw [if_neg empty, if_pos rfl, if_neg xml, if_neg uri]

/-- The declarations of a start tag are told from its attributes. -/
theorem Element.Stands.filter_declares (h : e.Stands ns) :
    e.tag.attributes.filter (fun a => Tag.declares a.1) = e.declarations.map Declaration.spelled ∧
    e.tag.attributes.filter (fun a => !Tag.declares a.1) = e.attributes.map Attribute.spelled := by
  have own : ∀ a ∈ e.declarations.map Declaration.spelled, Tag.declares a.1 = true := by
    simp only [List.mem_map, forall_exists_index, and_imp, forall_apply_eq_imp_iff₂]
    exact fun d _ => d.declares_spelled
  have others : ∀ a ∈ e.attributes.map Attribute.spelled, Tag.declares a.1 = false := by
    simp only [List.mem_map, forall_exists_index, and_imp, forall_apply_eq_imp_iff₂]
    exact fun a ha => (h.attributes a ha).declares
  rw [Element.tag]
  refine ⟨?_, ?_⟩
  · rw [List.filter_append, List.filter_eq_self.2 own,
      List.filter_eq_nil_iff.2 fun a ha => by simp [others a ha], List.append_nil]
  · rw [List.filter_append, List.filter_eq_nil_iff.2 fun a ha => by simp [own a ha],
      List.filter_eq_self.2 fun a ha => by simp [others a ha], List.nil_append]

theorem Element.Stands.declarations? (h : e.Stands ns) :
    Tag.declarations? e.tag.attributes = some e.declarations := by
  have made : ∀ ds : List Declaration, (∀ d ∈ ds, d ∈ e.declarations) →
      (ds.map Declaration.spelled).mapM (fun a => Tag.declaration? a.1 a.2) =
        some (ds.map some) := by
    intro ds sub
    induction ds with
    | nil => rfl
    | cons d ds ih =>
      obtain ⟨here, later⟩ := List.forall_mem_cons.1 sub
      rw [List.map_cons, List.mapM_cons, h.declaration? here, ih later]
      rfl
  rw [Tag.declarations?, h.filter_declares.1, made _ fun _ => id]
  simp only [bind, Option.bind_some, List.filterMap_map, id_eq]
  simpa using h.single

/-- The names of the attributes are found again. -/
theorem Element.Stands.names (h : e.Stands ns) (fits : e.tag.Fits) :
    (e.tag.attributes.map (·.1.print)).filter (!StartTag.isDeclaration ·) =
      e.attributes.map (·.spelled.1.print) := by
  have own : ∀ w ∈ (e.declarations.map Declaration.spelled).map (·.1.print),
      StartTag.isDeclaration w = true := by
    simp only [List.map_map, List.mem_map, forall_exists_index, and_imp,
      forall_apply_eq_imp_iff₂, Function.comp_apply]
    exact fun d _ => d.isDeclaration_spelled
  have others : ∀ w ∈ (e.attributes.map Attribute.spelled).map (·.1.print),
      StartTag.isDeclaration w = false := by
    simp only [List.map_map, List.mem_map, forall_exists_index, and_imp,
      forall_apply_eq_imp_iff₂, Function.comp_apply]
    intro a ha
    have sound : a.spelled.1.Sound :=
      (fits.attributes _ (List.mem_append_right _ (List.mem_map_of_mem ha))).1
    have word : IsWordOf a.spelled.1.print a.spelled.1 :=
      ⟨WrittenName.ofWord?_print sound, sound.print_chars⟩
    refine Bool.eq_false_iff.2 fun declaration => ?_
    exact Bool.false_ne_true ((h.attributes a ha).declares.symm.trans (word.declares declaration))
  rw [Element.tag, List.map_append, List.filter_append,
    List.filter_eq_nil_iff.2 fun w hw => by simp [own w hw],
    List.filter_eq_self.2 fun w hw => by simp [others w hw], List.nil_append, List.map_map]
  rfl

theorem Element.Stands.resolveAttributes? (h : e.Stands ns) (fits : e.tag.Fits) (scope : Scope) :
    Xml.resolveAttributes? ns scope (e.attributes.map fun a => String.ofList a.spelled.1.print)
      (e.attributes.map Attribute.spelled) = some e.attributes := by
  have uris : ∀ as : List Attribute, (∀ a ∈ as, a ∈ e.attributes) →
      (as.map Attribute.spelled).mapM (fun a => attributeUri? ns a.1) =
        some (as.map (·.name.uri)) := by
    intro as sub
    induction as with
    | nil => rfl
    | cons a as ih =>
      obtain ⟨here, later⟩ := List.forall_mem_cons.1 sub
      rw [List.map_cons, List.mapM_cons, (h.attributes a here).uri, ih later]
      rfl
  have names : List.zip (e.attributes.map (·.name.uri))
      ((e.attributes.map Attribute.spelled).map (·.1.localName)) =
        e.attributes.map fun a => (a.name.uri, a.name.localName) := by
    rw [List.map_map, List.zip_map']
    rfl
  rw [Xml.resolveAttributes?, uris _ fun _ => id]
  simp only [bind, Option.bind_some, names, if_pos h.distinct]
  simp only [List.length_map, if_true, List.map_map, List.zip_map']
  refine congrArg some ?_
  conv_rhs => rw [← List.map_id e.attributes]
  refine List.map_congr_left fun a ha => ?_
  have sound : a.spelled.1.Sound :=
    (fits.attributes _ (List.mem_append_right _ (List.mem_map_of_mem ha))).1
  simp only [Function.comp_apply, (h.attributes a ha).pfx sound]
  rfl

theorem Element.Stands.elementUri? (h : e.Stands ns) :
    Xml.elementUri? ns e.tag.name = some (ns.find? (elementPfx e)) := by
  rw [Xml.elementUri?, Element.tag, if_neg h.pfx]
  cases found : ns.find? (elementPfx e) with
  | some uri => rfl
  | none =>
    by_cases empty : elementPfx e = ""
    · exact if_pos empty
    · exact absurd found (h.bound empty)

end Tags

/-- The markup of a written tree is resolved to what is known in advance. -/
theorem Spells.resolved {outer : Bool} {f : Forest Kind} {m : Markup} {cs rest : List Char}
    (h : Spells outer f m cs rest) {ns : Namespaces} (stands : Stands ns f) :
    Markup.Resolved ns ns.toScope m (f.reread ns) := by
  -- an element is resolved alike, whether it is closed at once or has an end tag
  have element {e : Element} {source : List Char} {inner next : Forest Kind} {mi m : Markup}
      {ns : Namespaces} (exact : Item.Exact (.element source e.tag)) (fits : e.tag.Fits)
      (he : e.Stands (ns.extend e.declarations))
      (hi : Markup.Resolved (ns.extend e.declarations) (ns.extend e.declarations).toScope mi
        (inner.reread (ns.extend e.declarations)))
      (hn : Markup.Resolved ns ns.toScope m (next.reread ns)) :
      Markup.Resolved ns ns.toScope (.node (.element source e.tag) mi m)
        (Forest.reread ns (.node (.element e) inner next)) := by
    rw [Item.Exact, he.names fits, List.map_map] at exact
    have attributes := he.resolveAttributes? fits (ns.extend e.declarations).toScope
    rw [← he.filter_declares.2] at attributes
    have resolved := Markup.Resolved.element he.declarations? he.elementUri? exact attributes hi hn
    rw [writtenPfx?_print fits.name] at resolved
    exact resolved
  induction h generalizing ns with
  | nil => exact .nil
  | closed fits _ ih =>
    cases stands with
    | element he _ hn =>
      exact element (Token.next?_tag fits (.inr ⟨rfl, rfl⟩)).2 fits he .nil (ih hn)
    | leaf hk => cases hk
  | element fits _ _ ihInner ihNext =>
    cases stands with
    | element he hi hn =>
      exact element (Token.next?_tag fits (.inl ⟨rfl, rfl⟩)).2 fits he (ihInner hi) (ihNext hn)
    | leaf hk => cases hk
  | text ne _ _ _ ih =>
    cases stands with
    | leaf _ hn =>
      rw [Forest.reread]
      simp only [if_neg ne]
      exact .leaf .text (ih hn)
  | empty _ ih =>
    cases stands with
    | leaf _ hn => exact ih hn
  | comment _ _ ih =>
    cases stands with
    | leaf _ hn => exact .leaf .comment (ih hn)
  | instruction _ _ _ ih =>
    cases stands with
    | leaf _ hn => exact .leaf .instruction (ih hn)
  | lineBreak _ _ ih => exact ih stands

/-- A written document is read as what is known in advance. -/
theorem Spells.parse {f : Forest Kind} {m : Markup} {cs rest text : List Char}
    (h : Spells true f m cs rest) (stands : Stands [] f) (read : Markup.read? text = some m) :
    Document.parse (String.ofList text) = .ok (Document.ofForest (f.reread [])) := by
  have resolved : m.resolve? [] [] = some (f.reread []) := Markup.resolve?_eq_some_iff.2 (h.resolved stands)
  rw [Document.parse, Document.parse?, String.toList_ofList, read, Option.bind_some, resolved]
  rfl

end SamlSeal.Xml
