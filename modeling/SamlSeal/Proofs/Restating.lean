import SamlSeal.Proofs.Survival

/-!
# Start tags of canonical forms, read again

A start tag in canonical form declares the prefixes that matter at its element and no others.  What
is read from it is another element, in other bindings, and yet it has the same start tag again.

* `canonized`: an element as its start tag in canonical form writes it,
* `Restated`: what is kept between the bindings of the source, those that the written start tags
  make and those that are read back from them.  `Restated.step` takes one start tag,
* `Restated.consistent`: the names that are written mean the same when they are read,
* `Restated.ofElement_eq`: the element that is read back has the same start tag.
-/

namespace SamlSeal.Canonical

open Xml

/-! ### Elements as they are written -/

/-- An element as its start tag in canonical form writes it: with the declarations that are written
there, and its attributes in order. -/
def canonized (inclusive : List String) (scope written : Scope) (e : Element) : Element where
  name := e.name
  attributes := Sorting.sort
    (fun a b => (writtenAttribute a).le (writtenAttribute b)) e.attributes
  declarations := rendered inclusive scope written e

section Canonized

variable {inclusive : List String} {scope written : Scope} {e : Element}

theorem mem_canonized {a : Attribute} :
    a ∈ (canonized inclusive scope written e).attributes ↔ a ∈ e.attributes :=
  Sorting.mem_sort

theorem sound_canonized (hs : Namespaces.Sound scope) (sound : e.Sound) :
    (canonized inclusive scope written e).Sound :=
  ⟨sound.pfx, sound.localName, fun a ha => sound.attributes a (mem_canonized.1 ha),
    fun _ hd => isPfx_rendered hs hd⟩

theorem fit_canonized (proper : scope.Proper) (hs : Namespaces.Fit scope) (fit : e.Fit) :
    (canonized inclusive scope written e).Fit where
  pfx := fit.pfx
  values a ha := fit.values a (mem_canonized.1 ha)
  unbound a ha := fit.unbound a (mem_canonized.1 ha)
  distinct := ((Sorting.sort_perm _ _).map _).nodup_iff.2 fit.distinct
  single := nodup_rendered
  declarations d hd := by
    rcases cases_rendered hd with ⟨bound, -⟩ | ⟨rfl, -⟩
    · exact hs _ (Scope.mem_of_uri? bound)
    · exact uriFits_empty
  ends d hd empty := by
    rcases cases_rendered hd with ⟨bound, -⟩ | ⟨rfl, -⟩
    · exact absurd empty (proper.nonempty _ (Scope.mem_of_uri? bound))
    · rfl

/-- Attributes are written with the prefixes that they have. -/
theorem attributePfx_eq (hs : Namespaces.Sound scope) (fit : e.Fit) (consistent : e.Consistent scope)
    {a : Attribute} (ha : a ∈ e.attributes) : attributePfx a = a.name.pfx.getD "" := by
  rw [attributePfx]
  rcases fit.attribute_cases hs consistent ha with ⟨uri, pfx⟩ | ⟨uri, pfx⟩ |
    ⟨p, uri, pfx, huri, -, -, -, notXml⟩
  · rw [uri, pfx]
    rfl
  · rw [uri, pfx]
    rfl
  · rw [huri]
    exact if_neg notXml

/-- What canonical form writes of a start tag. -/
theorem write_ofElement (hs : Namespaces.Sound scope) (fit : e.Fit)
    (consistent : e.Consistent scope) : (Opening.ofElement inclusive scope written e).write =
      (canonized inclusive scope written e).tag.print ++ ['>'] := by
  have attributes : (sortedAttributes e).flatMap WrittenAttribute.write =
      (canonized inclusive scope written e).attributes.flatMap Attribute.write := by
    rw [sortedAttributes, ← Sorting.map_sort, List.flatMap_map]
    refine List.flatMap_congr fun a ha => ?_
    have qualified : QName.qualified { a.name with pfx := some (attributePfx a) } =
        a.name.qualified :=
      QName.qualified_congr (attributePfx_eq hs fit consistent (Sorting.mem_sort.1 ha)) rfl
    exact congrArg (writeAttribute · a.value) qualified
  rw [← Element.writeOpening_eq, Opening.write, Opening.ofElement, writeLists, attributes,
    Element.writeOpening]
  simp only [canonized, List.append_assoc, List.cons_append]

/-- What canonical form writes of an element: its start tag, what is inside, and its end tag. -/
theorem write_render_element {outer : Scope} (here : scope = outer.declare e.declarations)
    (hs : Namespaces.Sound scope) (fit : e.Fit) (consistent : e.Consistent scope)
    {inner next : Forest (Piece Element)} {rest : List Char} :
    write (render inclusive outer written (.node (.element e) inner next)) ++ rest =
      (canonized inclusive scope written e).tag.print ++ '>' :: (write (render inclusive scope
        ((Opening.ofElement inclusive scope written e).bindings written) inner) ++
          (['<', '/'] ++ (canonized inclusive scope written e).tag.name.print ++ ['>'] ++
            (write (render inclusive outer written next) ++ rest))) := by
  have ending : (Opening.ofElement inclusive scope written e).writeEnd =
      ['<', '/'] ++ (canonized inclusive scope written e).tag.name.print ++ ['>'] := by
    rw [Opening.writeEnd, Element.tag, elementPfx, QName.print_eq]
    rfl
  simp [render, write, ← here, write_ofElement hs fit consistent, ending]

end Canonized

/-! ### Bindings that are written, and read back -/

/-- What is kept along the start tags of a canonical form between the bindings `scope` in force in
the source, the bindings `written` that the tags make, the bindings `ns` in which their names are
resolved when they are read, and the bindings `reread` that are put together from the changes. -/
structure Restated (scope written : Scope) (ns : Namespaces) (reread : Scope) : Prop where
  proper : scope.Proper
  sound : Namespaces.Sound scope
  fit : Namespaces.Fit scope
  found : ∀ p, ns.find? p = written.uri? p
  single : ∀ p, Scope.Single ns p
  bindable : ns.Sound
  same : ∀ p, reread.uri? p = ns.toScope.uri? p
  /-- No prefix but the empty one is ever taken away. -/
  nonempty : ∀ p, p ≠ "" → written.uri? p ≠ some ""
  unbound : ∀ p, p ≠ "" → scope.uri? p = none → written.uri? p = none

theorem Restated.start {scope : Scope} (proper : scope.Proper) (sound : Namespaces.Sound scope)
    (fit : Namespaces.Fit scope) : Restated scope [] [] [] where
  proper := proper
  sound := sound
  fit := fit
  found _ := rfl
  single _ := by simp [Scope.Single]
  bindable := .nil
  same _ := rfl
  nonempty _ _ := nofun
  unbound _ _ _ := rfl

namespace Restated

variable {inclusive : List String} {scope written reread inside : Scope} {ns : Namespaces}
  {e : Element}

/-- The empty namespace counts as none when a form is read back. -/
theorem reread_eq (h : Restated scope written ns reread) (p : String) :
    reread.uri? p = (written.uri? p).filter (· != "") := by
  rw [h.same, Scope.uri?_toScope (h.single p), h.found]

/-- One more start tag, that of an element with the bindings `inside` in force. -/
theorem step (h : Restated scope written ns reread) (sound : e.Sound) (fit : e.Fit)
    (here : inside = scope.declare e.declarations) (inclusive : List String) :
    Restated inside ((Opening.ofElement inclusive inside written e).bindings written)
      (ns.extend (rendered inclusive inside written e))
      (reread.declare
        (ns.toScope.changes (ns.extend (rendered inclusive inside written e)).toScope)) := by
  have proper : inside.Proper := here ▸ h.proper.declare e.declarations
  have sound' : Namespaces.Sound inside := here ▸ h.sound.declare sound.declarations
  have nodup : ((rendered inclusive inside written e).map (·.pfx)).Nodup := nodup_rendered
  have found : ∀ p, (ns.extend (rendered inclusive inside written e)).find? p =
      ((Opening.ofElement inclusive inside written e).bindings written).uri? p := by
    intro p
    rw [Namespaces.find?_extend, h.found, uri?_bindings_eq]
    rfl
  have single (p : String) : Scope.Single (ns.extend (rendered inclusive inside written e)) p :=
    Namespaces.single_extend (h.single p) (Scope.single_of_nodup nodup p)
  have nonempty : ∀ p, p ≠ "" →
      ((Opening.ofElement inclusive inside written e).bindings written).uri? p ≠ some "" := by
    intro p ne bound
    rw [uri?_bindings_eq, Option.or_eq_some_iff] at bound
    rcases bound with declared | ⟨-, around⟩
    · rcases cases_rendered (Scope.mem_of_uri? declared) with ⟨known, -⟩ | ⟨eq, -⟩
      · exact proper.nonempty _ (Scope.mem_of_uri? known) rfl
      · exact ne (Declaration.mk.inj eq).1
    · exact h.nonempty p ne around
  refine ⟨proper, sound', here ▸ h.fit.declare fit.declarations, found, single, ?_, fun p => ?_,
    nonempty, fun p ne missing => ?_⟩
  · exact h.bindable.extend fun d hd => isPfx_rendered sound' hd
  · refine Scope.uri?_declare_changes (.toScope _) (h.same p) fun none => ?_
    by_cases ne : p = ""
    · exact .inl ne
    · -- nothing is bound to the empty namespace, so the tags around do not bind the prefix either
      refine .inr ?_
      rw [Scope.uri?_toScope (single p), found] at none
      rw [Scope.uri?_toScope (h.single p), h.found]
      cases bound : ((Opening.ofElement inclusive inside written e).bindings written).uri? p with
      | none =>
        rw [uri?_bindings_eq, Option.or_eq_none_iff] at bound
        rw [bound.2]
        rfl
      | some uri =>
        have notEmpty : uri ≠ "" := fun eq => nonempty p ne (bound.trans (congrArg some eq))
        rw [bound, Option.filter_some, if_pos (by simpa using notEmpty)] at none
        cases none
  · have around : scope.uri? p = none := by
      by_contra bound
      exact Scope.uri?_declare_ne_none fit.ends ne bound (here ▸ missing)
    rw [uri?_bindings_eq, h.unbound p ne around, Option.or_none]
    refine Scope.uri?_eq_none_iff.2 fun d hd eq => ?_
    rcases cases_rendered hd with ⟨bound, -⟩ | ⟨rfl, -⟩
    · rw [eq, missing] at bound
      cases bound
    · exact ne eq.symm

/-- A prefix that matters at an element means the same in what is read back. -/
theorem uri?_of_utilized {written' reread' : Scope} {ns' : Namespaces}
    (h : Restated inside written' ns' reread')
    (after : written' = (Opening.ofElement inclusive inside written e).bindings written) {p : String}
    (hp : p ∈ utilized inclusive e) : reread'.uri? p = inside.uri? p := by
  rw [h.reread_eq, ← h.proper.filter_uri?]
  refine Scope.filter_congr ?_
  cases bound : inside.uri? p with
  | some uri => rw [after, uri?_bindings hp bound]
  | none =>
    by_cases ne : p = ""
    · subst ne
      rw [after, default_bindings hp bound]
      rfl
    · rw [h.unbound p ne bound]

/-- The names of an element mean the same in what is read back. -/
theorem consistent {written' reread' : Scope} {ns' : Namespaces}
    (h : Restated inside written' ns' reread')
    (after : written' = (Opening.ofElement inclusive inside written e).bindings written)
    (sound : e.Sound) (fit : e.Fit) (consistent : e.Consistent inside) :
    (canonized inclusive inside written e).Consistent ns'.toScope := by
  have same {p : String} (hp : p ∈ utilized inclusive e) : ns'.toScope.uri? p = inside.uri? p :=
    (h.same p).symm.trans (h.uri?_of_utilized after hp)
  have own : elementPfx e ∈ utilized inclusive e := elementPfx_mem_utilized sound.pfx.1
  refine ⟨fun empty => ?_, fun ne notXml => ?_, fun a ha => ?_⟩
  · have empty : elementPfx e = "" := empty
    rw [← empty, same own, empty]
    exact consistent.unprefixed empty
  · obtain ⟨uri, huri, bound⟩ := consistent.prefixed ne notXml
    exact ⟨uri, huri, (same own).trans bound⟩
  · have ha := mem_canonized.1 ha
    rcases fit.attribute_cases h.sound consistent ha with ⟨uri, -⟩ | ⟨uri, -⟩ |
      ⟨p, uri, pfx, huri, bound, ne, isPfx, -⟩
    · exact .inl uri
    · exact .inr (.inl uri)
    · have written : attributePfx a = p := by
        rw [attributePfx_eq h.sound fit consistent ha, pfx]
        rfl
      have mem : p ∈ utilized inclusive e :=
        written ▸ attributePfx_mem_utilized ha (by rwa [written]) (by rw [written]; exact isPfx.1)
      exact .inr (.inr ⟨p, uri, pfx, ne, huri, (same mem).trans bound⟩)

/-- The element that is read back has the same start tag. -/
theorem ofElement_eq {written' reread' : Scope} {ns' : Namespaces}
    (h : Restated inside written' ns' reread')
    (after : written' = (Opening.ofElement inclusive inside written e).bindings written) :
    Opening.ofElement inclusive reread' written
      ((canonized inclusive inside written e).reread ns) =
        Opening.ofElement inclusive inside written e := by
  have pfx : elementPfx ((canonized inclusive inside written e).reread ns) = elementPfx e :=
    Element.elementPfx_reread _ _
  have attributes : sortedAttributes ((canonized inclusive inside written e).reread ns) =
      sortedAttributes e := by
    have sorted : ((canonized inclusive inside written e).attributes).map writtenAttribute =
        sortedAttributes e := Sorting.map_sort _ _ _
    rw [sortedAttributes, Element.reread, sorted]
    exact Sorting.sort_eq_self (pairwise_sort_writtenAttribute _)
  -- the same prefixes matter, though perhaps in another order
  have declarations : rendered inclusive reread' written
      ((canonized inclusive inside written e).reread ns) = rendered inclusive inside written e := by
    refine rendered_congr (fun p => ?_) fun p hp => ?_
    · rw [mem_utilized, mem_utilized, pfx]
      simp only [Element.reread, mem_canonized]
    · rw [declaration?, declaration?, h.uri?_of_utilized after hp]
  rw [Opening.ofElement, Opening.ofElement, declarations, attributes]
  exact congrArg (Opening.mk · _ _) (QName.qualified_congr pfx rfl)

end Restated

end SamlSeal.Canonical
