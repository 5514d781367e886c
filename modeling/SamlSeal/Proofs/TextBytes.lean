import Mathlib.Data.List.Chain
import SamlSeal.Signature.Digest

/-!
# Texts as bytes

The bytes of a text tell where its characters start, so a text can be taken apart by positions in
its bytes.

* `not_infix_utf8`: in the bytes of a text no continuation byte comes after a basic character,
* `Decides`: a test of bytes that says the same of all bytes of a character.  A comparison with a
  basic character is such a test, and what is made of these is one again,
* `Between`: a position between two characters,
* `Between.skipWhile`: going on as long as such a test holds leads from one such position to
  another.
-/

namespace SamlSeal

/-! ### The bytes of a text -/

theorem size_utf8Encode (cs : List Char) :
    cs.utf8Encode.size = (cs.flatMap String.utf8EncodeChar).length :=
  List.size_toByteArray

theorem utf8_ofList (cs : List Char) :
    utf8 (String.ofList cs) = cs.flatMap String.utf8EncodeChar := by
  simp [utf8, String.toUTF8, List.utf8Encode]

theorem utf8_eq (s : String) : utf8 s = s.toList.flatMap String.utf8EncodeChar := by
  rw [← utf8_ofList, String.ofList_toList]

theorem utf8_append (s t : String) : utf8 (s ++ t) = utf8 s ++ utf8 t := by
  simp [utf8]

/-- A byte that goes on with a character. -/
def IsContinuation (b : UInt8) : Prop := 0x80 ≤ b.toNat ∧ b.toNat < 0xC0

/-- A character starts with a byte of its own, and takes no others if it is a basic one. -/
theorem utf8EncodeChar_cases (c : Char) : ∃ b bs, String.utf8EncodeChar c = b :: bs ∧
    ¬ IsContinuation b ∧ (bs = [] ∨ ∀ x ∈ b :: bs, 0x80 ≤ x.toNat) := by
  simp only [String.utf8EncodeChar, IsContinuation]
  split
  · refine ⟨_, _, rfl, ?_, .inl rfl⟩
    rw [UInt8.toNat_ofNat']
    omega
  split
  · refine ⟨_, _, rfl, ?_, .inr ?_⟩ <;>
      simp only [List.forall_mem_cons, UInt8.toNat_ofNat', List.not_mem_nil, false_imp_iff,
        implies_true, and_true] <;> omega
  split
  · refine ⟨_, _, rfl, ?_, .inr ?_⟩ <;>
      simp only [List.forall_mem_cons, UInt8.toNat_ofNat', List.not_mem_nil, false_imp_iff,
        implies_true, and_true] <;> omega
  · refine ⟨_, _, rfl, ?_, .inr ?_⟩ <;>
      simp only [List.forall_mem_cons, UInt8.toNat_ofNat', List.not_mem_nil, false_imp_iff,
        implies_true, and_true] <;> omega

theorem head?_utf8Encode {cs : List Char} {b : UInt8}
    (h : b ∈ (cs.flatMap String.utf8EncodeChar).head?) : ¬ IsContinuation b := by
  cases cs with
  | nil => cases h
  | cons c cs =>
    obtain ⟨first, more, eq, no, -⟩ := utf8EncodeChar_cases c
    rw [List.flatMap_cons, eq] at h
    obtain rfl := Option.some.inj h
    exact no

/-- In the bytes of a text, a basic character is followed by the start of another character. -/
theorem isChain_utf8Encode (cs : List Char) :
    (cs.flatMap String.utf8EncodeChar).IsChain fun a b => a.toNat < 0x80 → ¬ IsContinuation b := by
  induction cs with
  | nil => exact .nil
  | cons c cs ih =>
    obtain ⟨first, more, eq, -, alone | large⟩ := utf8EncodeChar_cases c
    · rw [List.flatMap_cons, eq, alone, List.isChain_append]
      exact ⟨.singleton _, ih, fun _ _ b hb _ => head?_utf8Encode hb⟩
    · rw [List.flatMap_cons, eq, List.isChain_append]
      refine ⟨?_, ih, fun _ _ b hb _ => head?_utf8Encode hb⟩
      refine List.Pairwise.isChain (List.pairwise_of_forall_mem_list ?_)
      intro a ha b _ basic
      exact absurd (large a ha) (by omega)

theorem not_infix_utf8 (s : String) {a b : UInt8} (basic : a.toNat < 0x80)
    (continues : IsContinuation b) : ¬ [a, b] <:+: utf8 s := by
  intro inside
  rw [utf8_eq] at inside
  obtain ⟨front, rest, eq⟩ := inside
  have chain := isChain_utf8Encode s.toList
  rw [← eq, List.isChain_append, List.isChain_append] at chain
  have pair := chain.1.2.1
  exact List.isChain_pair.1 pair basic continues

/-- Bytes that can be read as a text are the bytes of this text. -/
theorem fromUTF8?_eq_some_iff {bs : Bytes} {s : String} :
    String.fromUTF8? ⟨bs.toArray⟩ = some s ↔ bs = utf8 s := by
  constructor
  · intro h
    obtain ⟨valid, eq⟩ := Option.dite_none_right_eq_some.1 h
    rw [← Option.some.inj eq]
    simp [utf8, String.fromUTF8]
  · rintro rfl
    have bytes : (⟨(utf8 s).toArray⟩ : ByteArray) = s.toUTF8 := by simp [utf8]
    rw [bytes]
    exact dif_pos s.isValidUTF8

/-! ### Tests of bytes -/

theorem utf8Size_eq_one_iff {c : Char} : c.utf8Size = 1 ↔ c.toNat < 0x80 := by
  rw [Char.utf8Size_eq_one_iff, UInt32.le_iff_toNat_le]
  exact Nat.lt_succ_iff.symm

theorem utf8EncodeChar_of_lt {c : Char} (basic : c.toNat < 0x80) :
    String.utf8EncodeChar c = [c.toUInt8] :=
  String.utf8EncodeChar_eq_singleton (utf8Size_eq_one_iff.2 basic)

theorem le_of_mem_utf8EncodeChar {c : Char} (large : 0x80 ≤ c.toNat) {b : UInt8}
    (hb : b ∈ String.utf8EncodeChar c) : 0x80 ≤ b.toNat := by
  obtain ⟨first, more, eq, -, rfl | all⟩ := utf8EncodeChar_cases c
  · have size : c.utf8Size = 1 := by rw [← String.length_utf8EncodeChar, eq]; rfl
    exact absurd (utf8Size_eq_one_iff.1 size) (by omega)
  · exact all b (eq ▸ hb)

/-- A basic character has a byte that no other character has. -/
theorem eq_toUInt8_iff {a c : Char} {b : UInt8} (basic : a.toNat < 0x80)
    (hb : b ∈ String.utf8EncodeChar c) : b = a.toUInt8 ↔ c = a := by
  have toNat {c : Char} (h : c.toNat < 0x80) : c.toUInt8.toNat = c.toNat :=
    Nat.mod_eq_of_lt (Nat.lt_trans h (by decide))
  by_cases alone : c.toNat < 0x80
  · rw [utf8EncodeChar_of_lt alone, List.mem_singleton] at hb
    rw [hb, ← UInt8.toNat_inj, toNat alone, toNat basic, Char.toNat_inj]
  · have large := le_of_mem_utf8EncodeChar (Nat.le_of_not_lt alone) hb
    constructor
    · rintro rfl
      exact absurd (toNat basic ▸ large) (Nat.not_le_of_lt basic)
    · rintro rfl
      exact absurd basic alone

/-- A test of single bytes that says of every byte of a character what a test of characters says
of the whole. -/
def Decides (onByte : UInt8 → Bool) (onChar : Char → Bool) : Prop :=
  ∀ c, ∀ b ∈ String.utf8EncodeChar c, onByte b = onChar c

namespace Decides

variable {onByte onByte' : UInt8 → Bool} {onChar onChar' : Char → Bool}

theorem beq {a : Char} (basic : a.toNat < 0x80) : Decides (· == a.toUInt8) (· == a) := by
  intro c b hb
  rw [Bool.eq_iff_iff, beq_iff_eq, beq_iff_eq, eq_toUInt8_iff basic hb]

theorem or (h : Decides onByte onChar) (h' : Decides onByte' onChar') :
    Decides (fun b => onByte b || onByte' b) (fun c => onChar c || onChar' c) := by
  intro c b hb
  simp only [h c b hb, h' c b hb]

theorem and (h : Decides onByte onChar) (h' : Decides onByte' onChar') :
    Decides (fun b => onByte b && onByte' b) (fun c => onChar c && onChar' c) := by
  intro c b hb
  simp only [h c b hb, h' c b hb]

theorem not (h : Decides onByte onChar) : Decides (!onByte ·) (!onChar ·) := by
  intro c b hb
  simp only [h c b hb]

/-- The bytes up to the first that fails the test are those of whole characters. -/
theorem takeWhile (h : Decides onByte onChar) (cs : List Char) :
    (cs.flatMap String.utf8EncodeChar).takeWhile onByte =
      (cs.takeWhile onChar).flatMap String.utf8EncodeChar := by
  induction cs with
  | nil => rfl
  | cons c cs ih =>
    cases holds : onChar c with
    | true =>
      have all : ∀ b ∈ String.utf8EncodeChar c, onByte b = true := fun b hb => (h c b hb).trans holds
      rw [List.flatMap_cons, List.takeWhile_append_of_pos all, ih, List.takeWhile_cons_of_pos holds,
        List.flatMap_cons]
    | false =>
      obtain ⟨b, bs, eq, -⟩ := utf8EncodeChar_cases c
      have fails : onByte b = false := (h c b (eq ▸ List.mem_cons_self)).trans holds
      rw [List.flatMap_cons, eq, List.cons_append, List.takeWhile_cons_of_neg (by simp [fails]),
        List.takeWhile_cons_of_neg (by simp [holds])]
      rfl

theorem findIdx?_eq_none (h : Decides onByte onChar) {cs : List Char}
    (fail : ∀ c ∈ cs, onChar c = false) :
    (cs.flatMap String.utf8EncodeChar).findIdx? onByte = none := by
  refine List.findIdx?_eq_none_iff.2 fun b hb => ?_
  obtain ⟨c, hc, hb⟩ := List.mem_flatMap.1 hb
  rw [h c b hb, fail c hc]

/-- The first byte that passes the test starts the first character that does. -/
theorem findIdx?_append_cons (h : Decides onByte onChar) {before : List Char} {c : Char}
    (fail : ∀ c ∈ before, onChar c = false) (holds : onChar c = true) (after : List Char) :
    ((before ++ c :: after).flatMap String.utf8EncodeChar).findIdx? onByte =
      some (before.flatMap String.utf8EncodeChar).length := by
  obtain ⟨b, bs, eq, -⟩ := utf8EncodeChar_cases c
  have first : onByte b = true := (h c b (eq ▸ List.mem_cons_self)).trans holds
  rw [List.flatMap_append, List.findIdx?_append, h.findIdx?_eq_none fail, List.flatMap_cons, eq,
    List.cons_append, List.findIdx?_cons, if_pos first]
  simp

end Decides

/-! ### Positions -/

/-- A position between two characters of a text, or at one of its ends: `seen` stands before it,
`ahead` after it. -/
structure Between (text : String) (pos : Nat) (seen ahead : List Char) : Prop where
  text_eq : text = String.ofList (seen ++ ahead)
  pos_eq : pos = (seen.flatMap String.utf8EncodeChar).length

/-- The first position from `pos` on where a byte fails a test, or the end of the bytes. -/
def skipWhile (test : UInt8 → Bool) (bytes : Bytes) (pos : Nat) : Nat :=
  if h : pos < bytes.length then
    if test bytes[pos] then skipWhile test bytes (pos + 1) else pos
  else pos
termination_by bytes.length - pos

theorem skipWhile_eq (test : UInt8 → Bool) (bytes : Bytes) (pos : Nat) :
    skipWhile test bytes pos = pos + ((bytes.drop pos).takeWhile test).length := by
  fun_induction skipWhile test bytes pos with
  | case1 pos h holds ih =>
    rw [ih, List.drop_eq_getElem_cons h, List.takeWhile_cons_of_pos holds, List.length_cons]
    omega
  | case2 pos h fails =>
    rw [List.drop_eq_getElem_cons h, List.takeWhile_cons_of_neg fails]
    rfl
  | case3 pos h =>
    rw [List.drop_eq_nil_of_le (Nat.le_of_not_lt h)]
    rfl

theorem le_skipWhile (test : UInt8 → Bool) (bytes : Bytes) (pos : Nat) :
    pos ≤ skipWhile test bytes pos := by
  rw [skipWhile_eq]
  exact Nat.le_add_right ..

namespace Between

variable {text : String} {pos : Nat} {seen ahead : List Char}

theorem start (text : String) : Between text 0 [] text.toList := ⟨by simp, rfl⟩

theorem drop_utf8 (h : Between text pos seen ahead) :
    (utf8 text).drop pos = ahead.flatMap String.utf8EncodeChar := by
  rw [h.text_eq, h.pos_eq, utf8_ofList, List.flatMap_append, List.drop_left]

theorem le_length (h : Between text pos seen ahead) : pos ≤ (utf8 text).length := by
  rw [h.text_eq, h.pos_eq, utf8_ofList, List.flatMap_append, List.length_append]
  omega

theorem isValid (h : Between text pos seen ahead) : (⟨pos⟩ : String.Pos.Raw).IsValid text := by
  refine String.Pos.Raw.isValid_iff_exists_append.2 ⟨.ofList seen, .ofList ahead, ?_, ?_⟩
  · rw [h.text_eq, String.ofList_append]
  · refine String.Pos.Raw.ext ?_
    rw [String.byteIdx_rawEndPos, ← String.size_toByteArray, String.toByteArray_ofList,
      size_utf8Encode, h.pos_eq]

/-- Going over some characters takes as many positions as they have bytes. -/
theorem advance {word : List Char} (h : Between text pos seen (word ++ ahead)) :
    Between text (pos + (word.flatMap String.utf8EncodeChar).length) (seen ++ word) ahead where
  text_eq := by rw [h.text_eq, List.append_assoc]
  pos_eq := by rw [h.pos_eq, List.flatMap_append, List.length_append]

/-- A basic character takes one position. -/
theorem next {c : Char} (h : Between text pos seen (c :: ahead)) (basic : c.toNat < 0x80) :
    Between text (pos + 1) (seen ++ [c]) ahead := by
  have after : Between text (pos + ([c].flatMap String.utf8EncodeChar).length) (seen ++ [c]) ahead :=
    h.advance
  rwa [List.flatMap_singleton, utf8EncodeChar_of_lt basic] at after

/-- A skip ends between characters if its test decides characters. -/
theorem skipWhile {onByte : UInt8 → Bool} {onChar : Char → Bool} (decides : Decides onByte onChar)
    (h : Between text pos seen ahead) : Between text (SamlSeal.skipWhile onByte (utf8 text) pos)
      (seen ++ ahead.takeWhile onChar) (ahead.dropWhile onChar) := by
  rw [skipWhile_eq, h.drop_utf8, decides.takeWhile]
  exact advance (by rwa [List.takeWhile_append_dropWhile])

theorem getElem?_nil (h : Between text pos seen []) : (utf8 text)[pos]? = none := by
  rw [← List.head?_drop, h.drop_utf8]
  rfl

theorem getElem?_cons {c : Char} (h : Between text pos seen (c :: ahead)) :
    ∃ b ∈ String.utf8EncodeChar c, (utf8 text)[pos]? = some b := by
  obtain ⟨b, bs, eq, -⟩ := utf8EncodeChar_cases c
  refine ⟨b, eq ▸ List.mem_cons_self, ?_⟩
  rw [← List.head?_drop, h.drop_utf8, List.flatMap_cons, eq]
  rfl

/-- What stands between two positions. -/
theorem extract {start stop : Nat} {word : List Char}
    (first : Between text start seen (word ++ ahead))
    (last : Between text stop (seen ++ word) ahead) :
    String.extract ⟨⟨start⟩, first.isValid⟩ ⟨⟨stop⟩, last.isValid⟩ = String.ofList word := by
  have bytes : text.toByteArray = seen.utf8Encode ++ (word.utf8Encode ++ ahead.utf8Encode) := by
    rw [first.text_eq, String.toByteArray_ofList, List.utf8Encode_append, List.utf8Encode_append]
  have stop_eq : stop = seen.utf8Encode.size + word.utf8Encode.size := by
    rw [last.pos_eq, List.flatMap_append, List.length_append, size_utf8Encode, size_utf8Encode]
  refine String.toByteArray_inj.1 ?_
  calc text.toByteArray.extract start stop
    _ = (seen.utf8Encode ++ (word.utf8Encode ++ ahead.utf8Encode)).extract
          (seen.utf8Encode.size + 0) (seen.utf8Encode.size + word.utf8Encode.size) := by
        rw [bytes, first.pos_eq, ← size_utf8Encode, stop_eq, Nat.add_zero]
    _ = (word.utf8Encode ++ ahead.utf8Encode).extract 0 word.utf8Encode.size :=
        ByteArray.extract_append_size_add
    _ = word.utf8Encode := ByteArray.extract_append_eq_left rfl
    _ = (String.ofList word).toByteArray := String.toByteArray_ofList.symm

end Between

end SamlSeal
