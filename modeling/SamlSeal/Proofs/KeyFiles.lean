import SamlSeal.Key.Loading
import SamlSeal.Proofs.Profile

/-!
# The form of a key file

A key file tells its form by its first bytes, while each loader has its own idea of what it takes.
That the two agree rests on what sets the forms apart:

* `not_infix_utf8`: in the bytes of a text no continuation byte comes after a basic character, but
  the identifier of RSA in a binary key holds such a pair.  So no binary key is armoured text,
* `IsBinaryKey.tag_unique`: the two binary forms differ in what their sequence starts with,
* `Key.ofFile_eq_ok_iff`: a file is accepted exactly if one of the loaders accepts it, where
  armoured text has to start with its boundary.

White space or other text in front of the boundary is no obstacle to `Key.ofPem`, but to
`Key.ofFile` it is (`Key.ofFile_indented`).
-/

namespace SamlSeal

/-! ### Elements of a binary key -/

namespace Der

theorem length?_eq_append {bs rest : Bytes} {n : Nat} (h : length? bs = some (n, rest)) :
    ∃ header, bs = header ++ rest := by
  cases bs with
  | nil => cases h
  | cons b bs =>
    rw [length?] at h
    split at h
    · obtain ⟨-, rfl⟩ := Prod.mk.inj (Option.some.inj h)
      exact ⟨[b], rfl⟩
    · obtain ⟨-, h⟩ := Option.ite_none_right_eq_some.1 h
      obtain ⟨-, rfl⟩ := Prod.mk.inj (Option.some.inj h)
      exact ⟨b :: bs.take (b.toNat - 0x80), by simp⟩

/-- An element is its tag, a length, its content, and what comes after it. -/
theorem any?_eq_append {bs content rest : Bytes} {tag : UInt8}
    (h : any? bs = some (tag, content, rest)) :
    ∃ header, bs = tag :: (header ++ (content ++ rest)) := by
  cases bs with
  | nil => cases h
  | cons b bs =>
    obtain ⟨⟨n, after⟩, length, h⟩ := Option.bind_eq_some_iff.1 h
    obtain ⟨-, h⟩ := Option.ite_none_right_eq_some.1 h
    obtain ⟨rfl, rfl, rfl⟩ : b = tag ∧ after.take n = content ∧ after.drop n = rest := by
      simpa using h
    obtain ⟨header, rfl⟩ := length?_eq_append length
    exact ⟨header, by simp⟩

theorem element?_eq_append {bs content rest : Bytes} {tag : UInt8}
    (h : element? tag bs = some (content, rest)) :
    ∃ header, bs = tag :: (header ++ (content ++ rest)) := by
  obtain ⟨⟨found, content', rest'⟩, any, h⟩ := Option.bind_eq_some_iff.1 h
  obtain ⟨same, h⟩ := Option.ite_none_right_eq_some.1 h
  obtain ⟨rfl, rfl⟩ := Prod.mk.inj (Option.some.inj h)
  subst same
  exact any?_eq_append any

theorem only?_eq_append {bs content : Bytes} {tag : UInt8} (h : only? tag bs = some content) :
    ∃ header, bs = tag :: (header ++ content) := by
  obtain ⟨⟨content', rest⟩, element, h⟩ := Option.bind_eq_some_iff.1 h
  obtain ⟨empty, h⟩ := Option.ite_none_right_eq_some.1 h
  obtain rfl := Option.some.inj h
  obtain ⟨header, eq⟩ := element?_eq_append element
  rw [List.isEmpty_iff.1 empty, List.append_nil] at eq
  exact ⟨header, eq⟩

end Der

/-- Bytes are a sequence that starts with an element of the given tag and holds the identifier of
RSA. -/
structure IsBinaryKey (tag : UInt8) (bs : Bytes) : Prop where
  sequence : ∃ content, Der.only? Der.sequenceTag bs = some content ∧ content.head? = some tag
  algorithm : Key.rsaAlgorithm <:+: bs

namespace IsBinaryKey

variable {bs : Bytes} {tag tag' : UInt8}

/-- What a sequence starts with tells the two binary forms apart. -/
theorem tag_unique (h : IsBinaryKey tag bs) (h' : IsBinaryKey tag' bs) : tag = tag' := by
  obtain ⟨content, read, head⟩ := h.sequence
  obtain ⟨content', read', head'⟩ := h'.sequence
  obtain rfl := Option.some.inj (read.symm.trans read')
  exact Option.some.inj (head.symm.trans head')

theorem not_armourStart (h : IsBinaryKey tag bs) : ¬ Key.armourStart <+: bs := by
  obtain ⟨content, read, -⟩ := h.sequence
  obtain ⟨header, rfl⟩ := Der.only?_eq_append read
  rintro ⟨rest, eq⟩
  have starts : Key.armourStart.head? = some 0x2d := by decide +kernel
  have first := congrArg List.head? eq
  rw [List.head?_append, starts] at first
  exact absurd (Option.some.inj first) (by decide)

/-- The identifier of RSA is not part of any text. -/
theorem not_text (h : IsBinaryKey tag bs) (s : String) : bs ≠ utf8 s := by
  rintro rfl
  have pair : [0x2a, 0x86] <:+: Key.rsaAlgorithm := by decide
  exact not_infix_utf8 s (by decide) ⟨by decide, by decide⟩ (pair.trans h.algorithm)

end IsBinaryKey

/-! ### Loaders -/

namespace Key

variable {bs : Bytes} {key : Key}

theorem isBinaryKey_of_skipAlgorithm? {header content rest rest' : Bytes} {tag : UInt8}
    (read : Der.only? Der.sequenceTag bs = some content) (head : content.head? = some tag)
    (split : content = header ++ rest) (h : skipAlgorithm? rest = some rest') :
    IsBinaryKey tag bs := by
  refine ⟨⟨content, read, head⟩, ?_⟩
  obtain ⟨⟨identifier, after⟩, element, h⟩ := Option.bind_eq_some_iff.1 h
  obtain ⟨same, -⟩ := Option.ite_none_right_eq_some.1 h
  obtain ⟨front, eq⟩ := Der.element?_eq_append element
  obtain ⟨outer, rfl⟩ := Der.only?_eq_append read
  refine ⟨Der.sequenceTag :: (outer ++ header ++ Der.sequenceTag :: front), after, ?_⟩
  rw [split, eq, ← same]
  simp

theorem isBinaryKey_of_ofSpki (h : ofSpki bs = .ok key) :
    key.private? = none ∧ IsBinaryKey Der.sequenceTag bs := by
  unfold ofSpki at h
  split at h
  · next parts found =>
    obtain rfl := Except.ok.inj h
    obtain ⟨content, read, found⟩ := Option.bind_eq_some_iff.1 found
    obtain ⟨rest, skipped, -⟩ := Option.bind_eq_some_iff.1 found
    have head : content.head? = some Der.sequenceTag := by
      obtain ⟨⟨identifier, after⟩, element, -⟩ := Option.bind_eq_some_iff.1 skipped
      obtain ⟨front, rfl⟩ := Der.element?_eq_append element
      rfl
    exact ⟨rfl, isBinaryKey_of_skipAlgorithm? read head (List.nil_append _).symm skipped⟩
  · cases h

theorem isBinaryKey_of_ofPkcs8 (h : ofPkcs8 bs = .ok key) :
    key.private? ≠ none ∧ IsBinaryKey Der.integerTag bs := by
  unfold ofPkcs8 at h
  split at h
  · next secret found =>
    obtain rfl := Except.ok.inj h
    obtain ⟨content, read, found⟩ := Option.bind_eq_some_iff.1 found
    obtain ⟨⟨version, rest⟩, integer, found⟩ := Option.bind_eq_some_iff.1 found
    obtain ⟨rest', skipped, -⟩ := Option.bind_eq_some_iff.1 found
    obtain ⟨⟨digits, after⟩, element, integer⟩ := Option.bind_eq_some_iff.1 integer
    obtain ⟨n, -, integer⟩ := Option.bind_eq_some_iff.1 integer
    obtain ⟨rfl, rfl⟩ := Prod.mk.inj (Option.some.inj integer)
    obtain ⟨front, rfl⟩ := Der.element?_eq_append element
    have split : Der.integerTag :: (front ++ (digits ++ after)) =
        (Der.integerTag :: (front ++ digits)) ++ after := by simp
    exact ⟨Option.some_ne_none _, isBinaryKey_of_skipAlgorithm? read rfl split skipped⟩
  · cases h

/-- Armoured text is the bytes of a text. -/
theorem exists_text_of_ofPem (h : ofPem bs = .ok key) : ∃ s, bs = utf8 s := by
  obtain ⟨a, found, -⟩ := bind_eq_ok_iff.1 h
  unfold armour at found
  split at found
  · cases found
  · next text decoded => exact ⟨text, fromUTF8?_eq_some_iff.1 decoded⟩

/-- No bytes are taken by two loaders of different forms. -/
theorem forms_disjoint {key' : Key} :
    (ofPem bs = .ok key → ofPkcs8 bs ≠ .ok key' ∧ ofSpki bs ≠ .ok key') ∧
      (ofPkcs8 bs = .ok key → ofSpki bs ≠ .ok key') := by
  refine ⟨fun h => ?_, fun h h' => ?_⟩
  · obtain ⟨s, text⟩ := exists_text_of_ofPem h
    exact ⟨fun h' => (isBinaryKey_of_ofPkcs8 h').2.not_text s text,
      fun h' => (isBinaryKey_of_ofSpki h').2.not_text s text⟩
  · exact absurd ((isBinaryKey_of_ofPkcs8 h).2.tag_unique (isBinaryKey_of_ofSpki h').2) (by decide)

theorem armoured_eq_ok_iff {label : String} {data : Bytes} :
    armoured label bs = .ok data ↔ armour bs = .ok ⟨label, data⟩ := by
  rw [armoured, bind_eq_ok_iff]
  constructor
  · rintro ⟨⟨found, data'⟩, read, h⟩
    split at h
    · next same =>
      obtain rfl := Except.ok.inj h
      obtain rfl : found = label := same
      exact read
    · cases h
  · intro read
    exact ⟨_, read, if_pos rfl⟩

/-- The label of armoured text says which loader it is for. -/
theorem ofPem_eq_ok_iff : ofPem bs = .ok key ↔
    (ofSpkiPem bs = .ok key ∧ key.private? = none) ∨
      (ofPkcs8Pem bs = .ok key ∧ key.private? ≠ none) := by
  simp only [ofPem, ofSpkiPem, ofPkcs8Pem, bind_eq_ok_iff, armoured_eq_ok_iff]
  constructor
  · rintro ⟨⟨label, data⟩, read, h⟩
    split at h
    · next same =>
      obtain rfl : label = publicLabel := same
      exact .inl ⟨⟨data, read, h⟩, (isBinaryKey_of_ofSpki h).1⟩
    · split at h
      · next same =>
        obtain rfl : label = privateLabel := same
        exact .inr ⟨⟨data, read, h⟩, (isBinaryKey_of_ofPkcs8 h).1⟩
      · cases h
  · rintro (⟨⟨data, read, h⟩, -⟩ | ⟨⟨data, read, h⟩, -⟩)
    · exact ⟨_, read, by rwa [if_pos rfl]⟩
    · have other : privateLabel ≠ publicLabel := by decide
      exact ⟨_, read, by rwa [if_neg other, if_pos rfl]⟩

theorem ofFile_of_starts (path : String) (starts : armourStart <+: bs) :
    ofFile path bs = ofPem bs := by
  rw [ofFile, if_pos (List.isPrefixOf_iff_prefix.2 starts)]

/-- Trying one binary form before the other loses no file. -/
theorem ofFile_eq_ok_iff_of_not_starts (path : String) (other : ¬ armourStart <+: bs) :
    ofFile path bs = .ok key ↔ ofPkcs8 bs = .ok key ∨ ofSpki bs = .ok key := by
  rw [ofFile, if_neg (fun starts => other (List.isPrefixOf_iff_prefix.1 starts))]
  split
  · next found loaded =>
    have noSpki : ofSpki bs ≠ .ok key := forms_disjoint.2 loaded
    simp [loaded, noSpki]
  · next failure refused =>
    split
    · next found loaded => simp [refused, loaded]
    · next failure' refused' => simp [refused, refused']

/-- A file is accepted exactly if one of the loaders accepts it, and with the same key, except that
armoured text has to start with its boundary.  The label of armoured text names the loader for what
it holds.  No bytes have two forms, so it does not matter which form is tried first. -/
theorem ofFile_eq_ok_iff (path : String) (bs : Bytes) (key : Key) :
    (ofFile path bs = .ok key ↔
      (armourStart <+: bs ∧ ofPem bs = .ok key) ∨ ofPkcs8 bs = .ok key ∨ ofSpki bs = .ok key) ∧
    (ofPem bs = .ok key ↔ (ofSpkiPem bs = .ok key ∧ key.private? = none) ∨
      (ofPkcs8Pem bs = .ok key ∧ key.private? ≠ none)) ∧
    ∀ other, (ofPem bs = .ok key → ofPkcs8 bs ≠ .ok other ∧ ofSpki bs ≠ .ok other) ∧
      (ofPkcs8 bs = .ok key → ofSpki bs ≠ .ok other) := by
  refine ⟨?_, ofPem_eq_ok_iff, fun other => forms_disjoint⟩
  by_cases starts : armourStart <+: bs
  · have noPkcs8 : ofPkcs8 bs ≠ .ok key := fun h =>
      (isBinaryKey_of_ofPkcs8 h).2.not_armourStart starts
    have noSpki : ofSpki bs ≠ .ok key := fun h =>
      (isBinaryKey_of_ofSpki h).2.not_armourStart starts
    simp [ofFile_of_starts path starts, starts, noPkcs8, noSpki]
  · simp [ofFile_eq_ok_iff_of_not_starts path starts, starts]

/-- Armoured text with an empty line in front of its boundary. -/
def indented : String :=
  "\n-----BEGIN PUBLIC KEY-----\n" ++ "MBowDQYJKoZIhvcNAQEBBQADCQAwBgIBDwIBAw==\n" ++
    "-----END PUBLIC KEY-----\n"

/-- The loader of armoured text passes over an empty line in front of the boundary.  A file with the
same bytes is not recognized. -/
theorem ofFile_indented :
    (∃ parts, ofPem (utf8 indented) = .ok (.publicKey parts)) ∧
      ofFile "key.pem" (utf8 indented) = .error (.unknownKeyFormat "key.pem") := by
  constructor
  · have decoded := (fromUTF8?_eq_some_iff (s := indented)).2 rfl
    have read : ∃ a, Pem.decode? indented = some a ∧ a.label = publicLabel ∧
        (spki? a.data).isSome := by decide +kernel
    obtain ⟨a, read, label, found⟩ := read
    obtain ⟨parts, found⟩ := Option.isSome_iff_exists.1 found
    have opened : armour (utf8 indented) = .ok a := by simp [armour, decoded, read]
    have loaded : ofSpki a.data = .ok (.publicKey parts) := by simp [ofSpki, found]
    exact ⟨parts, bind_eq_ok_iff.2 ⟨a, opened, by rwa [if_pos label]⟩⟩
  · decide +kernel

end Key

end SamlSeal
