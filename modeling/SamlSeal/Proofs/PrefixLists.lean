import SamlSeal.Proofs.Profile
import SamlSeal.Proofs.Rendering

/-!
# Lists of prefixes

A transform names the prefixes whose bindings are always taken along in one attribute, as words with
white space between them.

* `isBlank_of_isSpace`: the white space of markup is blank,
* `eq_ogham_of_isBlank`: among the characters of names one is a blank, and no other,
* `Reference.transforms_of_spaced`: so a list of prefixes without that character is read as it was
  written, and the listed prefixes are bound in all start tags of the signed element.

With the Ogham space mark in it, a prefix is cut in two (`Reference.transforms_ogham`).
-/

namespace SamlSeal

open Xml

/-! ### Blanks in names -/

theorem isBlank_of_isSpace {c : Char} (h : isSpace c = true) : Text.isBlank c = true := by
  simp only [isSpace, Bool.or_eq_true, beq_iff_eq] at h
  rcases h with ((rfl | rfl) | rfl) | rfl <;> decide

/-- Among the characters of names only the Ogham space mark is a blank. -/
theorem eq_ogham_of_isBlank {c : Char} (name : isNameChar c = true)
    (blank : Text.isBlank c = true) : c = '\u1680' := by
  have same : c.toNat = 0x1680 := by
    simp only [isNameChar, inRanges, nameStartRanges, nameExtraRanges, List.any_cons, List.any_nil,
      Bool.or_false, Bool.or_eq_true, Bool.and_eq_true, decide_eq_true_eq] at name
    simp only [Text.isBlank, Bool.or_eq_true, Bool.and_eq_true, decide_eq_true_eq, beq_iff_eq]
      at blank
    omega
  rw [← Char.ofNat_toNat c, same]

/-- A prefix as it stands in a list: a name without a colon, or the word for the default
namespace. -/
def IsListed (p : String) : Prop := IsNCName p ∨ p = "#default"

instance (p : String) : Decidable (IsListed p) := inferInstanceAs (Decidable (_ ∨ _))

theorem IsListed.solid {p : String} (h : IsListed p) (plain : '\u1680' ∉ p.toList) :
    p.toList ≠ [] ∧ ∀ c ∈ p.toList, Text.isBlank c = false := by
  rcases h with name | rfl
  · refine ⟨fun empty => name.ne_empty (String.toList_eq_nil_iff.1 empty), fun c hc => ?_⟩
    refine Bool.eq_false_iff.2 fun blank => plain ?_
    rwa [← eq_ogham_of_isBlank (name.2 c hc).1 blank]
  · have solid : "#default".toList.all (!Text.isBlank ·) = true := by decide
    exact ⟨by decide, fun c hc => by simpa using List.all_eq_true.1 solid c hc⟩

/-! ### Prefixes that are taken along -/

namespace Canonical.Opening

/-- The given prefixes mean in the written start tags what they mean in the document.  The prefix
`xml` needs no declaration. -/
def TakesAlong (path : List Opening) (inclusive : List String) (scope : Scope) : Prop :=
  ∀ p ∈ inclusive, p ≠ "xml" → ∀ uri, scope.uri? p = some uri →
    bound? (path.map (·.declarations)) p = some uri

theorem takesAlong_ofElement {inclusive : List String} {scope written : Scope} {e : Element}
    {around : List Opening}
    (known : ∀ p, written.uri? p = resolve? (around.map (·.declarations)) p)
    (proper : scope.Proper) :
    TakesAlong (ofElement inclusive scope written e :: around) inclusive scope := by
  intro p hp notXml uri bound
  have mem : p ∈ utilized inclusive e := mem_utilized.2 ⟨.inr (.inr hp), notXml⟩
  exact (bound?_rendered known proper mem (by simp [bound])).trans bound

end Canonical.Opening

open Canonical

/-- In all start tags of a canonical form the listed prefixes are bound as they are in the
document. -/
theorem Xml.Document.takesAlong_rendered {d : Document} (linked : d.Linked) {apex : NodeId}
    {e : Element} (he : d.element? apex = some e) (excluded : Option NodeId) (comments : Bool)
    (inclusive : List String) :
    List.Forall₂ (fun path x =>
        Opening.TakesAlong path (inclusivePrefixes inclusive) (d.scopeAt x.1))
      (openings [] (d.rendered apex excluded comments inclusive))
      (writtenElements excluded (d.view [apex])) := by
  refine Document.forall₂_rendered linked he
    (fun written around => ∀ p, written.uri? p = resolve? (around.map (·.declarations)) p)
    (fun _ => rfl) ?_
  intro x e written around _ _ known
  exact ⟨Opening.takesAlong_ofElement known (Document.proper_scope linked x).2,
    resolve?_rendered known⟩

/-! ### Lists in a reference -/

namespace Reference

variable {d : Document}

/-- The list of a transform is read as it was written. -/
theorem prefixes_of_spaced {second node : NodeId} {value : String} {ps : List String}
    (first : d.FirstChild second (d.LocallyNamed ElementName.inclusiveNamespaces) node)
    (listed : d.HasAttribute node AttributeName.prefixList value)
    (spaced : Text.Spaced isSpace (ps.map String.toList) value.toList)
    (names : ∀ p ∈ ps, IsListed p ∧ '\u1680' ∉ p.toList) : prefixes d second = some ps := by
  have found : d.childNamed? second ElementName.inclusiveNamespaces = some node :=
    (Document.find?_children_eq_some_iff fun _ => Document.locallyNamed_iff).2 first
  have words : Text.words value.toList = ps.map String.toList := by
    refine Text.words_eq_iff.2 ⟨spaced.mono fun _ => isBlank_of_isSpace, fun w hw => ?_⟩
    obtain ⟨p, hp, rfl⟩ := List.mem_map.1 hw
    exact (names p hp).1.solid (names p hp).2
  rw [prefixes, found, Option.map_some, Document.attribute?_eq_some_iff.2 listed,
    Option.getD_some, words, List.map_map]
  simp [Function.comp_def]

/-- However the prefixes are set apart by white space, the transforms hold exactly the listed ones,
unless a prefix holds the Ogham space mark.  Wherever a listed prefix is bound in the signed
element, it is bound in the start tags of its canonical form. -/
theorem transforms_of_spaced (hd : d.Reachable) {reference list first second node : NodeId}
    {mode : Mode} {value : String} {ps : List String}
    (chain : d.FirstChild reference (d.Named Namespace.dsig ElementName.transforms) list)
    (pair : d.Lists list (d.Named Namespace.dsig ElementName.transform) [first, second])
    (enveloped : d.HasAttribute first AttributeName.algorithm Algorithm.enveloped)
    (canonical : d.HasAttribute second AttributeName.algorithm mode.uri)
    (inclusive : d.FirstChild second (d.LocallyNamed ElementName.inclusiveNamespaces) node)
    (listed : d.HasAttribute node AttributeName.prefixList value)
    (spaced : Text.Spaced isSpace (ps.map String.toList) value.toList)
    (names : ∀ p ∈ ps, IsListed p ∧ '\u1680' ∉ p.toList) :
    transforms d reference = .ok ⟨mode, some ps⟩ ∧
    ∀ site : Site, ∀ e, site.reference = reference → d.element? site.parent = some e →
      ∃ t, transforms d site.reference = .ok t ∧
        site.signedForm d t = .ok (String.ofList (Canonical.write
          (d.rendered site.parent (some site.signature) mode.keepsComments ps))) ∧
        List.Forall₂ (fun path x =>
            Opening.TakesAlong path (inclusivePrefixes ps) (d.scopeAt x.1))
          (openings [] (d.rendered site.parent (some site.signature) mode.keepsComments ps))
          (writtenElements (some site.signature) (d.view [site.parent])) := by
  have read : transforms d reference = .ok ⟨mode, some ps⟩ :=
    (transforms_eq_ok_iff hd.linked).2 ⟨list, first, second, chain, pair, enveloped, canonical,
      (prefixes_of_spaced inclusive listed spaced names).symm⟩
  refine ⟨read, fun site e same he => ⟨_, same ▸ read, ?_, ?_⟩⟩
  · refine Document.canonical_eq_ok ?_ rfl
    rw [Document.kind?_of_element? he]
    rfl
  · exact Document.takesAlong_rendered hd.linked he _ _ ps

/-! ### Two lists -/

/-- An element with a reference inside, whose second transform holds a list of prefixes.  The
element binds the default namespace and a prefix. -/
def listing (p value : String) : Document := .ofForest
  (.node (.element ⟨⟨none, "r", some "urn:d"⟩, [], [⟨"", "urn:d"⟩, ⟨p, "urn:u"⟩]⟩)
    (.node (.element ⟨⟨some "ds", "Reference", some Namespace.dsig⟩, [], [⟨"ds", Namespace.dsig⟩]⟩)
      (.node (.element ⟨⟨some "ds", "Transforms", some Namespace.dsig⟩, [], []⟩)
        (.node (.element ⟨⟨some "ds", "Transform", some Namespace.dsig⟩,
            [⟨⟨none, "Algorithm", none⟩, Algorithm.enveloped⟩], []⟩) .nil
          (.node (.element ⟨⟨some "ds", "Transform", some Namespace.dsig⟩,
              [⟨⟨none, "Algorithm", none⟩, Algorithm.exclusive⟩], []⟩)
            (.node (.element ⟨⟨none, "InclusiveNamespaces", some "urn:d"⟩,
              [⟨⟨none, "PrefixList", none⟩, value⟩], []⟩) .nil .nil) .nil)) .nil) .nil) .nil)

/-- The text of `listing` from its reference on, with a list of prefixes as it is written. -/
def listingLines (value : String) : List String :=
  ["<ds:Reference xmlns:ds='http://www.w3.org/2000/09/xmldsig#'><ds:Transforms>",
    "<ds:Transform Algorithm='http://www.w3.org/2000/09/xmldsig#enveloped-signature'/>",
    "<ds:Transform Algorithm='http://www.w3.org/2001/10/xml-exc-c14n#'>",
    "<InclusiveNamespaces PrefixList='", value, "'/></ds:Transform></ds:Transforms>",
    "</ds:Reference></r>"]

/-- The signature of `listing`, of which only the place and the reference count. -/
def listingSite : Site := ⟨.root, 2, 1, 2, 2, 2⟩

/-- A list with white space of several kinds, whose first prefix is not written in basic letters. -/
def mixedListing : Document := listing "é" "\té\n #default"

theorem transforms_of_spaced_mixed :
    Document.parse (String.join ("<r xmlns='urn:d' xmlns:é='urn:u'>" ::
      listingLines "&#9;é&#10; #default")) = .ok mixedListing ∧
    transforms mixedListing 2 = .ok ⟨.exclusive, some ["é", "#default"]⟩ ∧
    listingSite.signedForm mixedListing ⟨.exclusive, some ["é", "#default"]⟩ =
      .ok "<r xmlns=\"urn:d\" xmlns:é=\"urn:u\"></r>" := by
  have read : Document.parse (String.join ("<r xmlns='urn:d' xmlns:é='urn:u'>" ::
      listingLines "&#9;é&#10; #default")) = .ok mixedListing := by
    refine Document.parse_join ?_
    rw [listingLines]
    simp only [List.flatMap_cons, List.flatMap_nil]
    repeat rw [String.toList_ofList]
    decide +kernel
  have chain : mixedListing.FirstChild 2
      (mixedListing.Named Namespace.dsig ElementName.transforms) 3 :=
    (Document.childElement?_eq_some_iff (by decide)).1 rfl
  have pair : mixedListing.Lists 3
      (mixedListing.Named Namespace.dsig ElementName.transform) [4, 5] :=
    (Document.childElements_eq_iff (.ofForest _) (by decide)).1 rfl
  have enveloped : mixedListing.HasAttribute 4 AttributeName.algorithm Algorithm.enveloped :=
    Document.attribute?_eq_some_iff.1 rfl
  have canonical : mixedListing.HasAttribute 5 AttributeName.algorithm Mode.exclusive.uri :=
    Document.attribute?_eq_some_iff.1 rfl
  have inclusive : mixedListing.FirstChild 5
      (mixedListing.LocallyNamed ElementName.inclusiveNamespaces) 6 :=
    (Document.find?_children_eq_some_iff fun _ => Document.locallyNamed_iff).1 rfl
  have listed : mixedListing.HasAttribute 6 AttributeName.prefixList "\té\n #default" :=
    Document.attribute?_eq_some_iff.1 rfl
  have spaced : Text.Spaced isSpace (["é", "#default"].map String.toList)
      (['\t'] ++ ['é'] ++ (['\n', ' '] ++ "#default".toList ++ [])) :=
    .cons (List.all_eq_true.1 rfl) (by rintro c ⟨⟩; rfl)
      (.cons (List.all_eq_true.1 rfl) (by rintro c ⟨⟩) (.nil (List.forall_mem_nil _)))
  obtain ⟨list, form⟩ := transforms_of_spaced (.parse read) chain pair enveloped canonical
    inclusive listed spaced (by decide +kernel)
  obtain ⟨t, again, written, -⟩ := form listingSite _ rfl rfl
  obtain rfl : t = ⟨.exclusive, some ["é", "#default"]⟩ := by
    simpa using again.symm.trans list
  exact ⟨read, list, written.trans (congrArg Except.ok (by decide +kernel))⟩

/-- The Ogham space mark may stand in a prefix, but a list is cut at it: the listed prefix is lost,
and its binding is not taken along. -/
theorem transforms_ogham :
    Document.parse (String.join ("<r xmlns='urn:d' xmlns:a\u1680b='urn:u'>" ::
      listingLines "a\u1680b")) = .ok (listing "a\u1680b" "a\u1680b") ∧
    IsListed "a\u1680b" ∧ Text.Spaced isSpace ["a\u1680b".toList] "a\u1680b".toList ∧
    transforms (listing "a\u1680b" "a\u1680b") 2 = .ok ⟨.exclusive, some ["a", "b"]⟩ ∧
    listingSite.signedForm (listing "a\u1680b" "a\u1680b") ⟨.exclusive, some ["a", "b"]⟩ =
      .ok "<r xmlns=\"urn:d\"></r>" := by
  have spaced : Text.Spaced isSpace ["a\u1680b".toList] ([] ++ "a\u1680b".toList ++ []) :=
    .cons (List.forall_mem_nil _) (by rintro c ⟨⟩) (.nil (List.forall_mem_nil _))
  refine ⟨?_, by decide +kernel, spaced, rfl, ?_⟩
  · refine Document.parse_join ?_
    rw [listingLines]
    simp only [List.flatMap_cons, List.flatMap_nil]
    repeat rw [String.toList_ofList]
    decide +kernel
  · exact Document.canonical_eq_ok rfl (by decide +kernel)

end Reference

end SamlSeal
