import SamlSeal.CommandLine.Report
import SamlSeal.Proofs.Shape
import SamlSeal.Proofs.Unambiguous
import SamlSeal.Proofs.Verdict

/-!
# Documents survive being written

A document that was read, and possibly signed after that, can be written and read again.  The
document that is read then is alike: it has the same canonical forms and the same verdict.

* `Rewritten.step`: what reading a start tag keeps between the bindings of the source and those that
  are found in the written text,
* `Settled`: a tree whose elements hold exactly the declarations that tell the bindings inside them
  from those around them.  Trees that were read are settled (`Markup.Resolved.settled`), and
  setting attributes and texts keeps this (`Settled.of_rows`),
* `Bound`, `Forest.spells`: what is written of a tree can be read if its names are bound, as they
  are in a settled tree,
* `Document.survives`: all of it together.

Two things are left aside: processing instructions with the target `xml`, and attributes with the
prefix `xmlns`, which are written as declarations would be (`Document.Plain`).
-/

namespace SamlSeal.Xml

open Canonical

/-! ### Bindings that are written and read again -/

/-- The start tags of some markup are orderly. -/
def Item.Orderly : Item → Prop
  | .element _ tag => ∀ p, tag.Orderly p
  | _ => True

/-- The declarations in a node of some markup, if it is a start tag. -/
def Item.declared : Item → List Declaration
  | .element _ tag => tag.declared
  | _ => []

/-- Start tags are orderly if no prefix is declared twice, and none as empty. -/
theorem Markup.orderly_of_declared {m : Markup}
    (h : ∀ i ∈ Forest.labels m, (i.declared.map (·.pfx)).Nodup ∧
      ∀ d ∈ i.declared, d.pfx ≠ "" → d.uri ≠ "") : m.All Item.Orderly := by
  intro i hi
  obtain ⟨nodup, nonempty⟩ := h i hi
  cases i with
  | element source tag => exact Tag.orderly_of_nodup nodup nonempty
  | _ => trivial

/-- Where the source has the bindings `around`, the written text has the bindings `ns`.  Both make
the same scope, which is what the start tags `path` of the source say. -/
structure Rewritten (path : List Tag) (around ns : Namespaces) : Prop where
  orderly : ∀ t ∈ path, ∀ p, t.Orderly p
  enclosed : Enclosed path around ns.toScope
  single : ∀ p, Scope.Single ns p
  undeclared : ∀ p, around.find? p = none → ns.find? p = none

namespace Rewritten

variable {path : List Tag} {around ns own : Namespaces}

theorem nil : Rewritten [] [] [] :=
  ⟨by simp, .nil, by simp [Scope.Single], fun _ => id⟩

theorem uri? (h : Rewritten path around ns) (p : String) :
    ns.toScope.uri? p = around.toScope.uri? p :=
  h.enclosed.scope p fun t ht => h.orderly t ht p

/-- One more start tag: the source declares `own` there, and what is written are the changes. -/
theorem step (h : Rewritten path around ns) {tag : Tag} (orderly : ∀ p, tag.Orderly p)
    (declared : Tag.declarations? tag.attributes = some own) :
    Rewritten (tag :: path) (around.extend own)
      (ns.extend (around.toScope.changes (around.extend own).toScope)) := by
  have changes : ∀ p, Scope.Single (around.toScope.changes (around.extend own).toScope) p :=
    Scope.single_of_nodup (Scope.nodup_changes _ (.toScope _))
  have inside := h.enclosed.step declared
  have scope (p : String) := Namespaces.uri?_toScope_extend (h.single p) (changes p)
  refine ⟨List.forall_mem_cons.2 ⟨orderly, h.orderly⟩, ⟨inside.nearest, inside.single,
    fun p ordered => (scope p).trans (inside.scope p ordered)⟩,
    fun p => Namespaces.single_extend (h.single p) (changes p), fun p none => ?_⟩
  rw [Namespaces.find?_extend, Option.or_eq_none_iff] at none
  rw [Namespaces.find?_extend, h.undeclared p none.2, Option.or_none]
  -- what is changed is bound inside the element, or it was bound around it
  have notIn {d : Declaration} (hd : d ∈ around.extend own) : d.pfx ≠ p := by
    rcases Namespaces.mem_extend hd with hd | ⟨hd, -⟩
    · exact Scope.uri?_eq_none_iff.1 none.1 d hd
    · exact Scope.uri?_eq_none_iff.1 none.2 d hd
  refine Scope.uri?_eq_none_iff.2 fun d hd eq => ?_
  rcases (Scope.mem_changes (.toScope _)).1 hd with ⟨bound, -⟩ | ⟨rfl, ended, -⟩
  · exact notIn (Scope.mem_toScope (Scope.mem_of_uri? bound)) eq
  · obtain ⟨uri, bound⟩ := Option.isSome_iff_exists.1 ended
    exact Scope.uri?_eq_none_iff.1 none.2 _ (Scope.mem_toScope (Scope.mem_of_uri? bound)) eq

/-- The namespace of an element is found again, but for the empty one. -/
theorem elementUri (h : Rewritten path around ns) {name : WrittenName} {uri : Option String}
    (found : elementUri? around name = some uri) :
    ns.find? name.pfx = uri ∨ uri = some "" ∧ ns.find? name.pfx = none := by
  have same := h.uri? name.pfx
  rw [Scope.uri?_toScope (h.single _), Scope.uri?_toScope (h.enclosed.single _ fun t ht =>
    h.orderly t ht _)] at same
  obtain ⟨-, found⟩ := Option.ite_none_left_eq_some.1 found
  split at found
  · next u known =>
    obtain rfl := Option.some.inj found
    rw [known] at same
    by_cases empty : u = ""
    · subst empty
      cases written : ns.find? name.pfx with
      | none => exact .inr ⟨rfl, rfl⟩
      | some u =>
        refine .inl (congrArg some (of_not_not fun ne => ?_))
        rw [written, Option.filter_some, if_pos (by simpa using ne)] at same
        cases same
    · rw [Option.filter_some, if_pos (by simpa using empty)] at same
      exact .inl (Option.filter_eq_some_iff.1 same).1
  · next unknown =>
    obtain ⟨-, found⟩ := Option.ite_none_right_eq_some.1 found
    exact .inl ((h.undeclared _ unknown).trans (Option.some.inj found))

end Rewritten

/-! ### Settled trees -/

/-- The elements of a tree are read as what they are where the given namespaces are bound, and hold
the declarations that are worked out when they are read. -/
inductive Settled : Namespaces → Forest Kind → Prop
  | nil {ns : Namespaces} : Settled ns .nil
  | element {ns : Namespaces} {e : Element} {inner next : Forest Kind}
    (consistent : e.Consistent (ns.extend e.declarations).toScope) (alike : e.Alike (e.reread ns))
    (hi : Settled (ns.extend e.declarations) inner) (hn : Settled ns next) :
    Settled ns (.node (.element e) inner next)
  | leaf {ns : Namespaces} {kind : Kind} {inner next : Forest Kind} (hk : kind.isElement = false)
    (hn : Settled ns next) : Settled ns (.node kind inner next)

theorem Element.elementPfx_reread (ns : Namespaces) (e : Element) :
    elementPfx (e.reread ns) = elementPfx e := by
  rw [Element.reread, elementPfx]
  split
  · next empty => exact empty.symm
  · rfl

/-- A tree that was read is settled. -/
theorem Markup.Resolved.settled {m : Markup} {around : Namespaces} {outer : Scope}
    {f : Forest Kind} (h : Resolved around outer m f) (hm : m.All Item.Scanned)
    (orderly : m.All Item.Orderly) (toScope : outer = around.toScope) {path : List Tag}
    {ns : Namespaces} (rewritten : Rewritten path around ns) : Settled ns f := by
  induction h generalizing path ns with
  | nil => exact .nil
  | leaf hk _ ih =>
    obtain ⟨-, -, next⟩ := all_node.1 hm
    obtain ⟨-, -, onext⟩ := all_node.1 orderly
    exact .leaf (by cases hk <;> rfl) (ih next onext toScope rewritten)
  | @element around own _ source tag _ _ _ _ _ _ _ declared named scanned resolved _ _ ihInner
      ihNext =>
    obtain ⟨⟨word, words, isWord, areWords, scan⟩, inner, next⟩ := all_node.1 hm
    obtain ⟨here, oinner, onext⟩ := all_node.1 orderly
    obtain rfl := Option.some.inj (scan.symm.trans scanned)
    subst toScope
    have inside := rewritten.step here declared
    have ordered (p : String) : ∀ t ∈ tag :: path, t.Orderly p := fun t ht => inside.orderly t ht p
    have pfx := isWord.writtenPfx?
    refine .element ?_ ⟨Element.elementPfx_reread _ _, rfl, ?_, rfl, ?_⟩
      (ihInner inner oinner rfl inside) (ihNext next onext rfl rewritten)
    · refine Element.Consistent.congr ?_ inside.uri?
      exact consistent_of_resolves (fun p => inside.enclosed.single p (ordered p))
        (fun p ne => inside.enclosed.find?_ne_empty ne (ordered p)) pfx named
        (resolves_of_resolveAttributes? areWords resolved)
    · have found := inside.elementUri named
      rw [← pfx] at found
      exact found
    · exact Scope.changes_congr (.toScope _) (.toScope _) rewritten.uri? inside.uri?

namespace Document

variable {d d' : Document}

/-- A tree without elements is settled. -/
theorem Shows.settled {ids : List NodeId} {f : Forest (NodeId × Kind)} (hf : d.Shows ids f)
    (leaves : ∀ c ∈ ids, d.isElement c = false) (ns : Namespaces) :
    Settled ns (f.map Prod.snd) := by
  induction hf with
  | nil => exact .nil
  | @node id kind ids inner next hk _ _ _ ihNext =>
    obtain ⟨here, later⟩ := List.forall_mem_cons.1 leaves
    rw [isElement_eq, hk] at here
    exact .leaf here (ihNext later)

/-- A tree stays settled if its elements keep their names and declarations and get no attributes but
such without a namespace.  What is inside an element may go, if no element comes in its place. -/
theorem Settled.of_rows {ids : List NodeId} {f f' : Forest (NodeId × Kind)} (hf : d.Shows ids f)
    (hf' : d'.Shows ids f')
    (elements : ∀ x e', d'.element? x = some e' → ∃ e, d.element? x = some e ∧ e'.name = e.name ∧
      e'.declarations = e.declarations ∧
      ∀ a ∈ e'.attributes, a.name.uri = none ∨ ∃ b ∈ e.attributes, a.name = b.name)
    (children : ∀ x, d'.children x = d.children x ∨ ∀ c ∈ d'.children x, d'.isElement c = false)
    {ns : Namespaces} (settled : Settled ns (f.map Prod.snd)) : Settled ns (f'.map Prod.snd) := by
  induction hf generalizing f' ns with
  | nil =>
    cases hf'
    exact .nil
  | @node id kind ids inner next hk hi hn ihInner ihNext =>
    cases hf' with
    | @node _ kind' _ inner' next' hk' hi' hn' =>
      have rest : Settled ns (next'.map Prod.snd) := by
        cases settled with
        | element _ _ _ settled => exact ihNext hn' settled
        | leaf _ settled => exact ihNext hn' settled
      cases kind' with
      | element e' =>
        obtain ⟨e, he, name, declarations, attributes⟩ :=
          elements id e' (element?_of_kind? hk')
        obtain rfl : kind = .element e := Option.some.inj (hk.symm.trans (kind?_of_element? he))
        cases settled with
        | element consistent alike settled =>
          have pfx : elementPfx e' = elementPfx e := by rw [elementPfx, name, elementPfx]
          rw [← declarations] at consistent settled
          refine .element (consistent.keeps name attributes)
            ⟨Element.elementPfx_reread _ _, rfl, ?_, rfl, ?_⟩ ?_ rest
          · have uri := alike.uri
            rw [Element.reread, ← pfx, ← declarations, ← name] at uri
            exact uri
          · have changes := alike.declarations
            rw [Element.reread, ← declarations] at changes
            exact changes
          · rcases children id with same | leaves
            · rw [same] at hi'
              exact ihInner hi' settled
            · exact hi'.settled leaves _
        | leaf notElement => cases notElement
      | _ => exact .leaf rfl rest

end Document

/-! ### Writing settled trees -/

/-- What would be written as something else: an attribute with the prefix `xmlns`, which looks like
a declaration, and a processing instruction with the target `xml`. -/
def Kind.Plain : Kind → Prop
  | .element e => ∀ a ∈ e.attributes, Canonical.attributePfx a ≠ "xmlns"
  | .instruction target _ => target ≠ "xml"
  | _ => True

instance : (k : Kind) → Decidable k.Plain
  | .element e => inferInstanceAs (Decidable (∀ a ∈ e.attributes, Canonical.attributePfx a ≠ "xmlns"))
  | .instruction target _ => inferInstanceAs (Decidable (target ≠ "xml"))
  | .document | .text _ | .comment _ => .isTrue trivial

/-- A node that can be written and read again. -/
structure Kind.Writable (k : Kind) : Prop where
  sound : k.Sound
  fit : k.Fit
  plain : k.Plain

/-- The elements of a tree mean what they were resolved to where the given namespaces are bound. -/
inductive Bound : Namespaces → Forest Kind → Prop
  | nil {ns : Namespaces} : Bound ns .nil
  | element {ns : Namespaces} {e : Element} {inner next : Forest Kind}
    (consistent : e.Consistent (ns.extend e.declarations).toScope)
    (hi : Bound (ns.extend e.declarations) inner) (hn : Bound ns next) :
    Bound ns (.node (.element e) inner next)
  | leaf {ns : Namespaces} {kind : Kind} {inner next : Forest Kind} (hk : kind.isElement = false)
    (hn : Bound ns next) : Bound ns (.node kind inner next)

theorem Settled.bound {ns : Namespaces} {f : Forest Kind} (h : Settled ns f) : Bound ns f := by
  induction h with
  | nil => exact .nil
  | element consistent _ _ _ ihInner ihNext => exact .element consistent ihInner ihNext
  | leaf hk _ ih => exact .leaf hk ih

/-- A tree whose names are bound is read as what it is. -/
theorem Bound.stands {ns : Namespaces} {f : Forest Kind} (h : Bound ns f) (hns : ns.Sound)
    (single : ∀ p, Scope.Single ns p) (labels : ∀ k ∈ f.labels, k.Writable) : Stands ns f := by
  induction h with
  | nil => exact .nil
  | element consistent _ _ ihInner ihNext =>
    obtain ⟨⟨sound, fit, plain⟩, labels⟩ := List.forall_mem_cons.1 labels
    obtain ⟨inside, later⟩ := List.forall_mem_append.1 labels
    have bound := hns.extend sound.declarations
    have single' (p : String) :=
      Namespaces.single_extend (single p) (Scope.single_of_nodup fit.single p)
    exact .element (fit.stands sound bound single' consistent plain) (ihInner bound single' inside)
      (ihNext hns single later)
  | leaf hk _ ih =>
    exact .leaf hk (ih hns single
      (List.forall_mem_append.1 (List.forall_mem_cons.1 labels).2).2)

/-- A settled tree is alike when it is read again. -/
theorem Settled.alike {ns : Namespaces} {f : Forest Kind} (h : Settled ns f) (tidy : f.Tidy)
    (labels : ∀ k ∈ f.labels, k.Writable) : f.Alike (f.reread ns) := by
  induction h with
  | nil => exact .nil
  | element _ alike _ _ ihInner ihNext =>
    obtain ⟨-, -, tinner, tnext⟩ := tidy
    obtain ⟨inside, later⟩ := List.forall_mem_append.1 (List.forall_mem_cons.1 labels).2
    exact .node (by simp) (.element alike) (ihInner tinner inside) (ihNext tnext later)
  | @leaf ns kind inner next hk _ ih =>
    obtain ⟨leaf, -, -, tnext⟩ := tidy
    obtain ⟨here, labels⟩ := List.forall_mem_cons.1 labels
    have rest := ih tnext (List.forall_mem_append.1 labels).2
    cases kind with
    | element => cases hk
    | document => exact here.sound.elim
    | text content =>
      obtain rfl := leaf rfl
      by_cases empty : content = ""
      · rw [empty, Forest.reread]
        exact .empty rest
      · rw [Forest.reread]
        simp only [if_neg empty]
        exact .node (by simpa using empty) (.other rfl) .nil rest
    | comment content =>
      obtain rfl := leaf rfl
      exact .node (by simp) (.other rfl) .nil rest
    | instruction target data =>
      obtain rfl := leaf rfl
      exact .node (by simp) (.other rfl) .nil rest

/-- What does not start with a text is read as markup that does not start with a text. -/
theorem Spells.apart {outer : Bool} {f : Forest Kind} {m : Markup} {cs rest : List Char}
    (h : Spells outer f m cs rest) (first : ∀ k ∈ f.roots.head?, k.isText = false) :
    ∀ i ∈ m.roots.head?, i.isText = false := by
  induction h with
  | nil => simp [Forest.roots]
  | closed | element | comment | instruction =>
    rintro i hi
    obtain rfl := Option.some.inj hi
    rfl
  | text | empty => cases first _ rfl
  | lineBreak _ _ ih => exact ih first

namespace Forest

variable (id : NodeId) (next : Forest (NodeId × Kind)) (rest : List Char)

/-! Written nodes as reading meets them. -/

theorem write_closed (e : Element) : write (.node (id, .element e) .nil next) ++ rest =
    e.tag.print ++ '/' :: '>' :: (next.write ++ rest) := by
  simp [write, Element.writeOpening_eq]

theorem write_element (e : Element) (label : NodeId × Kind) (inner after : Forest (NodeId × Kind)) :
    write (.node (id, .element e) (.node label inner after) next) ++ rest =
      e.tag.print ++ '>' :: (write (.node label inner after) ++
        (['<', '/'] ++ e.tag.name.print ++ ['>'] ++ (next.write ++ rest))) := by
  have name : e.tag.name.print = e.name.qualified.toList := QName.print_eq e.name
  rw [write, Element.writeOpening_eq, name]
  · simp
  · nofun

theorem write_text (content : String) : write (.node (id, .text content) .nil next) ++ rest =
    Escape.text content.toList ++ (next.write ++ rest) := by
  simp [write]

theorem write_comment (content : String) : write (.node (id, .comment content) .nil next) ++ rest =
    ['<', '!', '-', '-'] ++ content.toList ++ ['-', '-', '>'] ++ (next.write ++ rest) := by
  simp [write]

theorem write_instruction (target : String) (data : Option String) :
    write (.node (id, .instruction target data) .nil next) ++ rest =
      ['<', '?'] ++ target.toList ++ writeData data ++ ['?', '>'] ++ (next.write ++ rest) := by
  simp [write]

end Forest

/-- What is written of a tree whose names are bound can be read. -/
theorem Forest.spells {f : Forest (NodeId × Kind)} {ns : Namespaces} (hns : ns.Sound)
    (names : Bound ns (f.map Prod.snd)) (tidy : (f.map Prod.snd).Tidy)
    (labels : ∀ x ∈ f.labels, x.2.Writable) {outer : Bool}
    (texts : outer = true → ∀ k ∈ (f.map Prod.snd).roots, k.isText = false) (rest : List Char) :
    ∃ m, Spells outer (f.map Prod.snd) m (f.write ++ rest) rest := by
  induction f generalizing ns outer rest with
  | nil => exact ⟨.nil, .nil⟩
  | node label inner next ihInner ihNext =>
    obtain ⟨id, kind⟩ := label
    obtain ⟨leaf, apart, tinner, tnext⟩ := tidy
    obtain ⟨⟨sound, fit, plain⟩, labels⟩ := List.forall_mem_cons.1 labels
    obtain ⟨inside, later⟩ := List.forall_mem_append.1 labels
    have rest' : Bound ns (next.map Prod.snd) := by
      cases names with
      | element _ _ names => exact names
      | leaf _ names => exact names
    obtain ⟨m, hm⟩ := ihNext hns rest' tnext later
      (fun outside x hx => texts outside x (List.mem_cons_of_mem _ hx)) rest
    cases kind with
    | document => exact sound.elim
    | element e =>
      cases names with
      | leaf notElement => cases notElement
      | element consistent names =>
        have bound := hns.extend sound.declarations
        have fits := fit.tag_fits sound bound.toScope consistent
        cases inner with
        | nil =>
          rw [write_closed]
          exact ⟨_, .closed fits hm⟩
        | node label inner' next' =>
          obtain ⟨mi, hmi⟩ := ihInner bound names tinner inside
            (fun outside => nomatch (outside : false = true))
            (['<', '/'] ++ e.tag.name.print ++ ['>'] ++ (next.write ++ rest))
          rw [write_element]
          exact ⟨_, .element fits hmi hm⟩
    | text content =>
      obtain rfl := Forest.eq_nil_of_map (leaf rfl)
      cases outer with
      | true => cases texts rfl _ List.mem_cons_self
      | false =>
        rw [write_text]
        by_cases empty : content = ""
        · subst empty
          exact ⟨m, .empty hm⟩
        · exact ⟨_, .text empty fit (hm.apart apart) hm⟩
    | comment content =>
      obtain rfl := Forest.eq_nil_of_map (leaf rfl)
      rw [write_comment]
      exact ⟨_, .comment fit hm⟩
    | instruction target data =>
      obtain rfl := Forest.eq_nil_of_map (leaf rfl)
      rw [write_instruction]
      exact ⟨_, .instruction fit plain hm⟩

/-! ### Documents that can be written -/

namespace Document

variable {d d' : Document}

/-- Nothing in a document would be written as something else. -/
def Plain (d : Document) : Prop := ∀ x k, d.kind? x = some k → k.Plain

theorem plain_of_rows (h : ∀ x, x < d.size → ∀ k ∈ d.kind? x, k.Plain) : d.Plain :=
  fun x k hk => h x (lt_size_of_kind? hk) k hk

theorem Plain.setAttribute (plain : d.Plain) {id : NodeId} {name value : String}
    (h : d.setAttribute id name value = .ok d') : d'.Plain := by
  obtain ⟨e, he, rfl⟩ := setAttribute_cases h
  intro x k hk
  rw [kind?_replaceElement he] at hk
  split at hk
  · obtain rfl := Option.some.inj hk
    intro a ha
    rcases mem_set ha with eq | ⟨b, hb, eq⟩
    · rw [Canonical.attributePfx, eq]
      exact (by decide : "" ≠ "xmlns")
    · rw [Canonical.attributePfx, eq]
      exact plain id _ (kind?_of_element? he) b hb
  · exact plain x k hk

theorem Plain.setText (plain : d.Plain) {id : NodeId} {content : String}
    (h : d.setText id content = .ok d') : d'.Plain := by
  intro x k hk
  rcases kind?_setText_cases h hk with rfl | hk
  · trivial
  · exact plain x k hk

/-- A document that can be written and read again. -/
structure Writable (d : Document) : Prop where
  linked : d.Linked
  sound : d.Sound
  fit : d.Fit
  tidy : d.Tidy
  plain : d.Plain
  settled : Settled [] ((d.view (d.children root)).map Prod.snd)

theorem Writable.parse {text : String} (h : parse text = .ok d)
    (orderly : ∀ m ∈ Markup.read? text.toList, m.All Item.Orderly) (plain : d.Plain) :
    d.Writable := by
  refine ⟨(Reachable.parse h).linked, .parse h, .parse h, .parse h, plain, ?_⟩
  obtain ⟨m, f, hm, hf, rfl⟩ := parse_cases h
  rw [view_ofForest, Forest.map_snd_number]
  exact hf.settled (Markup.all_read? Token.Maker.scanned hm) (orderly m hm) rfl .nil

theorem Writable.setAttribute (hd : d.Writable) {id : NodeId} {name value : String}
    (hname : IsNCName name) (ne : name ≠ "xmlns") (chars : ∀ c ∈ value.toList, isChar c = true)
    (h : d.setAttribute id name value = .ok d') : d'.Writable := by
  have linked := hd.linked.setAttribute h
  refine ⟨linked, hd.sound.setAttribute hd.linked hname ne h, hd.fit.setAttribute hd.linked chars h,
    hd.tidy.setAttribute h, hd.plain.setAttribute h, ?_⟩
  refine Settled.of_rows (shows_children hd.linked root) ?_ (fun x e' he' => ?_)
    (fun x => .inl (children_setAttribute h x)) hd.settled
  · rw [← children_setAttribute h root]
    exact shows_children linked root
  · obtain ⟨e, he, rfl⟩ := setAttribute_cases h
    rw [element?_replaceElement he] at he'
    split at he'
    · next here =>
      obtain rfl := Option.some.inj he'
      refine ⟨e, here ▸ he, rfl, rfl, fun a ha => ?_⟩
      rcases mem_set ha with eq | old
      · exact .inl (by rw [eq]; rfl)
      · exact .inr old
    · exact ⟨e', he', rfl, rfl, fun a ha => .inr ⟨a, ha, rfl⟩⟩

theorem Writable.setText (hd : d.Writable) {id : NodeId} {content : String}
    (chars : ∀ c ∈ content.toList, isChar c = true) (h : d.setText id content = .ok d') :
    d'.Writable := by
  have linked := hd.linked.setText h
  refine ⟨linked, hd.sound.setText h, hd.fit.setText chars h, hd.tidy.setText hd.linked h,
    hd.plain.setText h, ?_⟩
  obtain ⟨e, he⟩ := element_of_setText h
  have outer := shows_children linked root
  rw [children_setText_of_ne h (hd.linked.ne_root he).symm] at outer ⊢
  refine Settled.of_rows (shows_children hd.linked root) outer (fun x e he => ?_) (fun x => ?_)
    hd.settled
  · exact ⟨e, element?_setText h x ▸ he, rfl, rfl, fun a ha => .inr ⟨a, ha, rfl⟩⟩
  · rw [children_setText h]
    split
    · refine .inr fun c hc => ?_
      have new : c = d.size := by
        split at hc
        · cases hc
        · exact List.mem_singleton.1 hc
      rw [isElement, element?_setText h, element?, kind?, node?_eq_none (Nat.le_of_eq new.symm)]
      rfl
    · exact .inl rfl

/-- The rows that are shown below the document are rows of nodes that can be written. -/
theorem Writable.labels (hd : d.Writable) :
    ∀ x ∈ (d.view (d.children root)).labels, x.2.Writable := by
  have all {ids : List NodeId} {f : Forest (NodeId × Kind)} (h : d.Shows ids f)
      (ne : ∀ a ∈ ids, a ≠ root) : ∀ x ∈ f.labels, x.2.Writable := by
    induction h with
    | nil => simp [Forest.labels]
    | node hk _ _ ihInner ihNext =>
      obtain ⟨here, later⟩ := List.forall_mem_cons.1 ne
      refine List.forall_mem_cons.2 ⟨⟨hd.sound _ _ here hk, hd.fit _ _ here hk, hd.plain _ _ hk⟩,
        List.forall_mem_append.2 ⟨ihInner fun c hc => hd.linked.child_ne_root hc, ihNext later⟩⟩
  exact all (shows_children hd.linked root) fun c hc => hd.linked.child_ne_root hc

theorem Writable.sign (hd : d.Writable) {ctx : Context} {id issueInstant : String}
    (hid : ∀ c ∈ id.toList, isChar c = true) (hinstant : ∀ c ∈ issueInstant.toList, isChar c = true)
    (h : (SamlSeal.sign ctx d id issueInstant).trace.outcome = .ok ()) :
    (SamlSeal.sign ctx d id issueInstant).document.Writable :=
  sign_induction (Q := Writable) (fun hd hname ne chars h => hd.setAttribute hname ne chars h)
    (fun hd chars h => hd.setText chars h) hd hid hinstant h

/-- What is written of a document starts with a bracket. -/
theorem Writable.head (hd : d.Writable) (rest : List Char) :
    ∀ c ∈ ((d.view (d.children root)).write ++ rest).head?, c = '<' := by
  have labels := hd.labels
  have shown := shows_children hd.linked root
  have texts := hd.tidy.texts
  have single := hd.tidy.single
  generalize d.view (d.children root) = f at labels shown
  generalize d.children root = ids at shown texts single
  cases shown with
  | nil => cases single
  | @node id kind _ _ _ hk _ _ =>
    obtain ⟨here, -⟩ := List.forall_mem_cons.1 labels
    cases kind with
    | document => exact here.sound.elim
    | text content =>
      have text := texts id List.mem_cons_self
      rw [isText, hk] at text
      cases text
    | element e =>
      rw [Forest.write.eq_def]
      simp [Element.writeOpening]
    | comment content => simp [Forest.write]
    | instruction target data => simp [Forest.write]

/-- A document that can be written is read as one that is alike, also with an XML declaration in
front and a line break at its end. -/
theorem Writable.reparse (hd : d.Writable) : ∃ d', d'.Linked ∧ Document.parse d.toXml = .ok d' ∧
    Document.parse (Command.framed d) = .ok d' ∧
    ((d.view (d.children root)).map Prod.snd).Alike
      ((d'.view (d'.children root)).map Prod.snd) := by
  have shown := shows_children hd.linked root
  have tidy := hd.tidy.view shown (hd.tidy.apart root)
  have labels : ∀ k ∈ ((d.view (d.children root)).map Prod.snd).labels, k.Writable := by
    rw [Forest.labels_map]
    exact List.forall_mem_map.2 hd.labels
  have stands := hd.settled.bound.stands .nil (by simp [Scope.Single]) labels
  have texts : ∀ k ∈ ((d.view (d.children root)).map Prod.snd).roots, k.isText = false := by
    intro k hk
    have mem := List.mem_map_of_mem (f := Kind.isText) hk
    rw [← shown.map_any] at mem
    obtain ⟨c, hc, eq⟩ := List.mem_map.1 mem
    rw [← eq]
    exact hd.tidy.texts c hc
  have single := hd.tidy.countP_view hd.linked
  have spells (rest : List Char) :=
    Forest.spells .nil hd.settled.bound tidy hd.labels (fun _ : true = true => texts) rest
  refine ⟨ofForest (((d.view (d.children root)).map Prod.snd).reread []), .ofForest _, ?_, ?_, ?_⟩
  · obtain ⟨m, hm⟩ := spells []
    have read := hm.read? (.inl rfl) single
    rw [List.append_nil] at read
    exact hm.parse stands read
  · obtain ⟨m, hm⟩ := spells ['\n']
    have read := hm.read?_framed single (hd.head ['\n'])
    have text : Command.framed d = String.ofList
        ("<?xml version=\"1.0\" encoding=\"UTF-8\"?>\n".toList ++
          ((d.view (d.children root)).write ++ ['\n'])) := by
      rw [String.ofList_append, String.ofList_append, String.ofList_toList, ← String.append_assoc]
      rfl
    rw [text]
    exact hm.parse stands read
  · rw [view_ofForest, Forest.map_snd_number]
    exact hd.settled.alike tidy labels

/-- Every node below the document but an empty text has a node that it corresponds to. -/
theorem Matched.total (linked : d.Linked) (tidy : d.Tidy) (mirrors : Mirrors d d' (d.Matched d'))
    {a : NodeId} (below : d.Below root a) (ne : d.kind? a ≠ some (.text "")) :
    ∃ b, d.Matched d' a b := by
  induction below with
  | refl => exact ⟨root, .top⟩
  | @step p a up _ ih =>
    have child := linked.mem_children_iff.2 up
    -- a node with something inside is no text
    have inner : d.kind? p ≠ some (.text "") := by
      intro text
      rw [tidy.leaf p (by rw [text]; rfl)] at child
      cases child
    obtain ⟨b, hb⟩ := ih inner
    have shown : a ∈ d.shown (d.children p) := List.mem_filter.2 ⟨child, by simpa using ne⟩
    obtain ⟨i, hi, rfl⟩ := List.getElem_of_mem shown
    have same := (mirrors.children hb).length_eq
    exact ⟨_, hb.child (List.getElem?_eq_getElem hi) (List.getElem?_eq_getElem (same ▸ hi))⟩

/-- A document that was read, and possibly signed, is read again from what is written of it, and
from the file that the command line makes of it.  Its tree is then the same but for empty texts,
its nodes have the same canonical forms, and it is verified with the same answer or fault. -/
theorem survives {text : String} {s : Document} (h : parse text = .ok d)
    (orderly : ∀ m ∈ Markup.read? text.toList, m.All Item.Orderly) (plain : d.Plain)
    (made : s = d ∨ ∃ ctx id issueInstant, (∀ c ∈ id.toList, isChar c = true) ∧
      (∀ c ∈ issueInstant.toList, isChar c = true) ∧
      (sign ctx d id issueInstant).trace.outcome = .ok () ∧
      s = (sign ctx d id issueInstant).document) :
    ∃ s', parse s.toXml = .ok s' ∧ parse (Command.framed s) = .ok s' ∧
      ((s.view (s.children root)).map Prod.snd).Alike
        ((s'.view (s'.children root)).map Prod.snd) ∧
      (∀ a, s.Below root a → s.kind? a ≠ some (.text "") → ∃ b, s.Matched s' a b) ∧
      (∀ a b excluded excluded' comments inclusive, s.Matched s' a b →
        Option.Rel (s.Matched s') excluded excluded' →
        s'.canonical b excluded' comments inclusive = s.canonical a excluded comments inclusive) ∧
      ∀ ctx, verify ctx s' = verify ctx s := by
  have writable : s.Writable := by
    have read := Writable.parse h orderly plain
    rcases made with rfl | ⟨ctx, id, issueInstant, hid, hinstant, signed, rfl⟩
    · exact read
    · exact read.sign hid hinstant signed
  obtain ⟨s', linked', written, framed, alike⟩ := writable.reparse
  have mirrors := Mirrors.of_alike writable.linked linked' alike
  refine ⟨s', written, framed, alike, fun a => Matched.total writable.linked writable.tidy mirrors,
    fun a b excluded excluded' comments inclusive hab hx => ?_,
    mirrors.verify_eq writable.linked linked'⟩
  exact mirrors.canonical_eq writable.linked linked' hab hx comments inclusive

set_option maxRecDepth 10000 in
/-- A message that is sealed once more and then written to a file can still be verified. -/
theorem survives_sealed : ∃ s',
    parse (Command.framed (sign ⟨.privateKey sealingKey, true⟩ sealed "j" "u").document) = .ok s' ∧
    verify ⟨.publicKey sealingKey.publicKey, false⟩ s' =
      verify ⟨.publicKey sealingKey.publicKey, false⟩
        (sign ⟨.privateKey sealingKey, true⟩ sealed "j" "u").document := by
  have orderly : ∀ m ∈ Markup.read? (String.join
      ("<r xmlns:ds='http://www.w3.org/2000/09/xmldsig#' ID='i' IssueInstant='t'>" ::
        signatureLines)).toList, m.All Item.Orderly := by
    intro m hm
    refine Markup.orderly_of_declared ?_
    revert m
    rw [String.toList_join, signatureLines]
    simp only [List.flatMap_cons, List.flatMap_nil]
    -- the characters of a literal are at hand; to decode its bytes takes long
    repeat rw [String.toList_ofList]
    decide +kernel
  obtain ⟨s', -, framed, -, -, -, verdict⟩ := survives parse_sealed orderly
    (plain_of_rows (by decide +kernel))
    (.inr ⟨_, _, _, List.all_eq_true.1 (by decide), List.all_eq_true.1 (by decide), sign_sealed true,
      rfl⟩)
  exact ⟨s', framed, verdict _⟩

/-- An attribute with the prefix `xmlns` is not written as what it is: the document that was read
cannot be read again. -/
theorem not_survives :
    parse "<a xmlns:xmlns='urn:u' xmlns:z='urn:u' z:xmlns='urn:d' z:z='v'/>" = .ok disguised ∧
    (∀ m ∈ Markup.read? "<a xmlns:xmlns='urn:u' xmlns:z='urn:u' z:xmlns='urn:d' z:z='v'/>".toList,
      ∀ i ∈ Forest.labels m, (i.declared.map (·.pfx)).Nodup ∧ ∀ d ∈ i.declared, d.uri ≠ "") ∧
    disguised.toXml = String.ofList
      "<a xmlns=\"urn:d\" xmlns:xmlns=\"urn:u\" xmlns:z=\"urn:u\" xmlns:z=\"v\"/>".toList ∧
    parse disguised.toXml = .error .malformedXml := by
  have written : disguised.toXml = String.ofList
      "<a xmlns=\"urn:d\" xmlns:xmlns=\"urn:u\" xmlns:z=\"urn:u\" xmlns:z=\"v\"/>".toList :=
    congrArg String.ofList (by decide +kernel)
  refine ⟨parse_eq_ok (by decide +kernel), by decide +kernel, written, ?_⟩
  have refused : (Markup.read?
      "<a xmlns=\"urn:d\" xmlns:xmlns=\"urn:u\" xmlns:z=\"urn:u\" xmlns:z=\"v\"/>".toList).bind
        (fun m => (m.resolve? [] []).map ofForest) = none := by decide +kernel
  rw [written, parse, parse?, String.toList_ofList, refused]

end Document

end SamlSeal.Xml
