import SamlSeal.Proofs.StartTags
import SamlSeal.Proofs.TextBytes

/-!
# Scanning the bytes of a start tag

`StartTag.scan` goes by characters.  `StartTag.scanBytes` does the same without decoding the text:
it moves a position over the bytes, compares single bytes, and cuts the names out between two
positions.  Then a wrong step is possible: a position past the end of the text, or a cut through
the bytes of one character.  `Halt` tells these from a text that has no start tag.

* `StartTag.scanBytes_eq`: for every text, the scan of the bytes ends as the scan of the characters
  does, and so it never takes a wrong step,
* `StartTag.scanBytes_total_exact`: on a start tag as it is written, both find its words.

What carries the argument is that every position is one between two characters (`Between`), and
every comparison is one with a basic character (`Decides`).
-/

namespace SamlSeal.Xml.StartTag

/-! ### The scan -/

/-- How a scan of bytes ends other than with the names of a start tag. -/
inductive Halt where
  /-- The text does not start with a start tag. -/
  | unread
  /-- A position lies past the end of the text. -/
  | outside (pos : Nat)
  /-- The text is cut at a position where no character starts. -/
  | within (pos : Nat)
  /-- The text is cut from one position to an earlier one. -/
  | reversed (start stop : Nat)
  deriving DecidableEq, Repr

/-- The piece of a text between two positions. -/
def cut (text : String) (start stop : Nat) : Except Halt String :=
  if stop < start then .error (.reversed start stop)
  else if (utf8 text).length < stop then .error (.outside stop)
  else if first : (⟨start⟩ : String.Pos.Raw).IsValid text then
    if last : (⟨stop⟩ : String.Pos.Raw).IsValid text then
      .ok (String.extract ⟨⟨start⟩, first⟩ ⟨⟨stop⟩, last⟩)
    else .error (.within stop)
  else .error (.within start)

/-- The bytes of a text from a position on. -/
def bytesFrom (text : String) (pos : Nat) : Except Halt Bytes :=
  if pos ≤ (utf8 text).length then .ok ((utf8 text).drop pos) else .error (.outside pos)

/-- The byte of a gap. -/
def isGapByte (b : UInt8) : Bool :=
  b == ' '.toUInt8 || b == '\t'.toUInt8 || b == '\n'.toUInt8 || b == '\x0c'.toUInt8 ||
    b == '\r'.toUInt8

/-- The byte of a character that a tag name ends at. -/
def endsNameByte (b : UInt8) : Bool := isGapByte b || b == '/'.toUInt8 || b == '>'.toUInt8

/-- A byte within the name of an attribute. -/
def inNameByte (b : UInt8) : Bool := b != '='.toUInt8 && !isGapByte b

/-- The position after the quoted value that opens at a position. -/
def quotedEnd (text : String) (opening : Nat) : Except Halt Nat :=
  match (utf8 text)[opening]? with
  | none => .error .unread
  | some quote =>
    if quote = '"'.toUInt8 ∨ quote = '\''.toUInt8 then do
      let inside ← bytesFrom text (opening + 1)
      match inside.findIdx? (· == quote) with
      | none => .error .unread
      | some n => .ok (opening + 1 + (n + 1))
    else .error .unread

/-- The position after an equals sign and a quoted value, with the gaps in front of each. -/
def valueEnd (text : String) (pos : Nat) : Except Halt Nat :=
  let sign := skipWhile isGapByte (utf8 text) pos
  if (utf8 text)[sign]? = some '='.toUInt8 then
    quotedEnd text (skipWhile isGapByte (utf8 text) (sign + 1))
  else .error .unread

/-- The name of the attribute at a position, and the position after its value. -/
def attributeAt (text : String) (start : Nat) : Except Halt (String × Nat) := do
  let stop := skipWhile inNameByte (utf8 text) start
  let name ← cut text start stop
  let next ← valueEnd text stop
  .ok (name, next)

theorem lt_of_quotedEnd {text : String} {opening next : Nat}
    (h : quotedEnd text opening = .ok next) : opening < next := by
  rw [quotedEnd, bytesFrom] at h
  split at h
  · cases h
  · split at h
    · split at h
      · simp only [bind, Except.bind] at h
        split at h
        · cases h
        · obtain rfl := Except.ok.inj h
          omega
      · cases h
    · cases h

theorem lt_of_valueEnd {text : String} {pos next : Nat} (h : valueEnd text pos = .ok next) :
    pos < next := by
  have sign := le_skipWhile isGapByte (utf8 text) pos
  have opening := le_skipWhile isGapByte (utf8 text) (skipWhile isGapByte (utf8 text) pos + 1)
  rw [valueEnd] at h
  split at h
  · have closing := lt_of_quotedEnd h
    omega
  · cases h

theorem lt_of_attributeAt {text : String} {start next : Nat} {name : String}
    (h : attributeAt text start = .ok (name, next)) : start < next := by
  have stop := le_skipWhile inNameByte (utf8 text) start
  rw [attributeAt] at h
  cases hc : cut text start (skipWhile inNameByte (utf8 text) start) with
  | error e => rw [hc] at h; cases h
  | ok word =>
    cases hv : valueEnd text (skipWhile inNameByte (utf8 text) start) with
    | error e => rw [hc, hv] at h; cases h
    | ok next' =>
      rw [hc, hv] at h
      obtain ⟨-, rfl⟩ := Prod.mk.inj (Except.ok.inj h)
      exact Nat.lt_of_le_of_lt stop (lt_of_valueEnd hv)

/-- The names of the attributes from a position on. -/
def attributesFrom (text : String) (pos : Nat) : Except Halt (List String) :=
  match _ : (utf8 text)[skipWhile isGapByte (utf8 text) pos]? with
  | none => .error .unread
  | some b =>
    if b = '>'.toUInt8 ∨ b = '/'.toUInt8 then .ok []
    else
      match _ : attributeAt text (skipWhile isGapByte (utf8 text) pos) with
      | .error halt => .error halt
      | .ok (name, next) => do
        let names ← attributesFrom text next
        .ok (if isDeclaration name.toList then names else name :: names)
termination_by (utf8 text).length - pos
decreasing_by
  next here _ read =>
  have start := le_skipWhile isGapByte (utf8 text) pos
  have inside := (List.getElem?_eq_some_iff.1 here).1
  have later := lt_of_attributeAt read
  omega

/-- Reads the names of the start tag at the beginning of a text off its bytes. -/
def scanBytes (text : String) : Except Halt StartTag :=
  if (utf8 text).head? = some '<'.toUInt8 then do
    let stop := skipWhile (!endsNameByte ·) (utf8 text) 1
    let name ← cut text 1 stop
    let attributes ← attributesFrom text stop
    .ok ⟨name, attributes⟩
  else .error .unread

/-! ### Bytes and characters -/

theorem decides_isGap : Decides isGapByte isGap :=
  ((((Decides.beq (by decide)).or (.beq (by decide))).or (.beq (by decide))).or
    (.beq (by decide))).or (.beq (by decide))

theorem decides_endsName : Decides endsNameByte endsName :=
  (decides_isGap.or (.beq (by decide))).or (.beq (by decide))

theorem decides_inName : Decides inNameByte fun c => c != '=' && !isGap c :=
  (Decides.beq (by decide)).not.and decides_isGap.not

variable {text : String} {pos : Nat} {seen ahead : List Char}

theorem cut_between {start stop : Nat} {word : List Char}
    (first : Between text start seen (word ++ ahead))
    (last : Between text stop (seen ++ word) ahead) :
    cut text start stop = .ok (String.ofList word) := by
  have le : start ≤ stop := by
    rw [first.pos_eq, last.pos_eq, List.flatMap_append, List.length_append]
    exact Nat.le_add_right ..
  rw [cut, if_neg (Nat.not_lt.2 le), if_neg (Nat.not_lt.2 last.le_length), dif_pos first.isValid,
    dif_pos last.isValid, first.extract last]

/-- A step over bytes and a step over characters that end alike: both find nothing, or the position
of the one stands in front of the rest of the other. -/
inductive Reaches (text : String) : Except Halt Nat → Option (List Char) → Prop
  | unread : Reaches text (.error .unread) none
  | between {pos : Nat} {seen rest : List Char} (h : Between text pos seen rest) :
      Reaches text (.ok pos) (some rest)

/-- The quote that closes a value is found among the characters. -/
theorem reaches_closing {quote : Char} (basic : quote.toNat < 0x80)
    (h : Between text pos seen ahead) :
    Reaches text
      (match ((utf8 text).drop pos).findIdx? (· == quote.toUInt8) with
        | none => .error .unread
        | some n => .ok (pos + (n + 1)))
      (match ahead.dropWhile (· != quote) with
        | _ :: rest => some rest
        | [] => none) := by
  have split : ahead.takeWhile (· != quote) ++ ahead.dropWhile (· != quote) = ahead :=
    List.takeWhile_append_dropWhile
  have inside : ∀ c ∈ ahead.takeWhile (· != quote), (c == quote) = false :=
    fun c hc => by simpa using List.mem_takeWhile_imp hc
  have decides : Decides (· == quote.toUInt8) (· == quote) := .beq basic
  rw [h.drop_utf8]
  cases found : ahead.dropWhile (· != quote) with
  | nil =>
    rw [found, List.append_nil] at split
    rw [← split, decides.findIdx?_eq_none inside]
    exact .unread
  | cons c rest =>
    have closes : c = quote := by
      simpa [found] using List.head?_dropWhile_not (· != quote) ahead
    subst closes
    rw [found] at split
    rw [← split] at h ⊢
    rw [decides.findIdx?_append_cons inside (beq_self_eq_true c)]
    exact .between (h.advance.next basic)

theorem reaches_quotedEnd (h : Between text pos seen (ahead.dropWhile isGap)) :
    Reaches text (quotedEnd text pos) (skipValue? ('=' :: ahead)) := by
  have step : skipValue? ('=' :: ahead) =
      match ahead.dropWhile isGap with
      | quote :: cs =>
        if quote = '"' ∨ quote = '\'' then
          match cs.dropWhile (· != quote) with
          | _ :: rest => some rest
          | [] => none
        else none
      | [] => none := rfl
  rw [quotedEnd, step]
  cases eq : ahead.dropWhile isGap with
  | nil =>
    rw [eq] at h
    rw [h.getElem?_nil]
    exact .unread
  | cons quote cs =>
    rw [eq] at h
    obtain ⟨b, hb, here⟩ := h.getElem?_cons
    have double : b = '"'.toUInt8 ↔ quote = '"' := eq_toUInt8_iff (by decide) hb
    have single : b = '\''.toUInt8 ↔ quote = '\'' := eq_toUInt8_iff (by decide) hb
    rw [here]
    simp only [double, single]
    by_cases isQuote : quote = '"' ∨ quote = '\''
    · have basic : quote.toNat < 0x80 := by
        rcases isQuote with rfl | rfl <;> decide
      have same : b = quote.toUInt8 := (eq_toUInt8_iff basic hb).2 rfl
      have inside := h.next basic
      rw [if_pos isQuote, if_pos isQuote, bytesFrom, if_pos inside.le_length, same]
      exact reaches_closing basic inside
    · rw [if_neg isQuote, if_neg isQuote]
      exact .unread

/-- The value of an attribute ends at the same place for bytes and for characters. -/
theorem reaches_valueEnd (h : Between text pos seen ahead) :
    Reaches text (valueEnd text pos) (skipValue? ahead) := by
  have sign := h.skipWhile decides_isGap
  rw [valueEnd]
  cases eq : ahead.dropWhile isGap with
  | nil =>
    rw [eq] at sign
    rw [sign.getElem?_nil, if_neg (by simp), skipValue?, eq]
    exact .unread
  | cons c cs =>
    rw [eq] at sign
    obtain ⟨b, hb, here⟩ := sign.getElem?_cons
    have equals : b = '='.toUInt8 ↔ c = '=' := eq_toUInt8_iff (by decide) hb
    rw [here]
    simp only [Option.some.injEq, equals]
    by_cases isSign : c = '='
    · subst isSign
      have same : skipValue? ahead = skipValue? ('=' :: cs) := by
        rw [skipValue?, eq]
        rfl
      rw [if_pos rfl, same]
      exact reaches_quotedEnd ((sign.next (by decide)).skipWhile decides_isGap)
    · have none : skipValue? ahead = none := by
        rw [skipValue?, eq]
        split
        · next eq => exact absurd (List.cons.inj eq).1 isSign
        · rfl
      rw [if_neg isSign, none]
      exact .unread

/-- The name of an attribute is cut out between characters, and its value ends between them. -/
theorem attributeAt_cases (h : Between text pos seen ahead) :
    (attributeAt text pos = .error .unread ∧
      skipValue? (ahead.dropWhile fun c => c != '=' && !isGap c) = none) ∨
    ∃ next seen' rest, attributeAt text pos =
        .ok (String.ofList (ahead.takeWhile fun c => c != '=' && !isGap c), next) ∧
      skipValue? (ahead.dropWhile fun c => c != '=' && !isGap c) = some rest ∧
      Between text next seen' rest := by
  have stop := h.skipWhile decides_inName
  have name := cut_between (by rwa [List.takeWhile_append_dropWhile]) stop
  have value := reaches_valueEnd stop
  rw [attributeAt, name]
  generalize valueEnd text _ = ended at value ⊢
  generalize skipValue? _ = rest at value ⊢
  cases value with
  | unread => exact .inl ⟨rfl, rfl⟩
  | between next => exact .inr ⟨_, _, _, rfl, rfl, next⟩

theorem attributesFrom_of_none (here : (utf8 text)[skipWhile isGapByte (utf8 text) pos]? = none) :
    attributesFrom text pos = .error .unread := by
  rw [attributesFrom]
  split
  · rfl
  · next found => exact absurd (here.symm.trans found) (by simp)

theorem attributesFrom_of_some {b : UInt8}
    (here : (utf8 text)[skipWhile isGapByte (utf8 text) pos]? = some b) :
    attributesFrom text pos =
      if b = '>'.toUInt8 ∨ b = '/'.toUInt8 then .ok []
      else
        attributeAt text (skipWhile isGapByte (utf8 text) pos) >>= fun (name, next) =>
          attributesFrom text next >>= fun names =>
            .ok (if isDeclaration name.toList then names else name :: names) := by
  rw [attributesFrom]
  split
  · next missing => exact absurd (here.symm.trans missing) (by simp)
  · next b' found =>
    obtain rfl := Option.some.inj (here.symm.trans found)
    refine if_congr Iff.rfl rfl ?_
    split
    · next halt read => rw [read]; rfl
    · next name next read => rw [read]; rfl

theorem length_of_skipValue? {cs rest : List Char} (h : skipValue? cs = some rest) :
    rest.length < cs.length := by
  have shorter (test : Char → Bool) (cs : List Char) : (cs.dropWhile test).length ≤ cs.length :=
    (List.dropWhile_suffix _).length_le
  have sign := shorter isGap cs
  rw [skipValue?] at h
  split at h
  · next tail eq =>
    have opening := shorter isGap tail
    rw [eq, List.length_cons] at sign
    split at h
    · next quote inside eq' =>
      have closing := shorter (· != quote) inside
      rw [eq', List.length_cons] at opening
      split at h
      · split at h
        · next eq'' =>
          obtain rfl := Option.some.inj h
          rw [eq'', List.length_cons] at closing
          omega
        · cases h
      · cases h
    · cases h
  · cases h

/-- Attributes are read off the bytes as they are read off the characters.  Each takes at least one
character, so that the bound on their number does not matter. -/
theorem attributesFrom_eq {n : Nat} (hn : ahead.length ≤ n) (h : Between text pos seen ahead) :
    attributesFrom text pos = (scanAttributes n ahead).elim (.error .unread) .ok := by
  induction n generalizing pos seen ahead with
  | zero =>
    obtain rfl := List.eq_nil_of_length_eq_zero (Nat.le_zero.1 hn)
    exact attributesFrom_of_none (h.skipWhile decides_isGap).getElem?_nil
  | succ n ih =>
    have start := h.skipWhile decides_isGap
    have shorter : (ahead.dropWhile isGap).length ≤ ahead.length :=
      (List.dropWhile_suffix _).length_le
    rw [scanAttributes]
    cases eq : ahead.dropWhile isGap with
    | nil =>
      rw [eq] at start
      exact attributesFrom_of_none start.getElem?_nil
    | cons c cs =>
      rw [eq] at start shorter
      obtain ⟨b, hb, here⟩ := start.getElem?_cons
      have stop : b = '>'.toUInt8 ↔ c = '>' := eq_toUInt8_iff (by decide) hb
      have slash : b = '/'.toUInt8 ↔ c = '/' := eq_toUInt8_iff (by decide) hb
      rw [attributesFrom_of_some here]
      simp only [stop, slash]
      by_cases ends : c = '>' ∨ c = '/'
      · rw [if_pos ends, if_pos ends]
        rfl
      · rw [if_neg ends, if_neg ends]
        rcases attributeAt_cases start with ⟨read, value⟩ | ⟨next, seen', rest, read, value, between⟩
        · rw [read, value]
          rfl
        · have less := length_of_skipValue? value
          have dropped : ((c :: cs).dropWhile fun c => c != '=' && !isGap c).length ≤
              (c :: cs).length := (List.dropWhile_suffix _).length_le
          rw [read, value]
          have others := ih (by omega) between
          simp only [bind, Except.bind, Option.bind_some, String.toList_ofList, others]
          cases scanAttributes n rest with
          | none => rfl
          | some names => rfl

/-- The scan of the bytes ends as the scan of the characters does, and takes no wrong step. -/
theorem scanBytes_eq (text : String) :
    scanBytes text = (scan text.toList).elim (.error .unread) .ok := by
  have start := Between.start text
  rw [scanBytes, List.head?_eq_getElem?]
  cases eq : text.toList with
  | nil =>
    rw [eq] at start
    rw [start.getElem?_nil]
    rfl
  | cons c cs =>
    rw [eq] at start
    obtain ⟨b, hb, here⟩ := start.getElem?_cons
    have opens : b = '<'.toUInt8 ↔ c = '<' := eq_toUInt8_iff (by decide) hb
    rw [here]
    simp only [Option.some.injEq, opens]
    by_cases isStart : c = '<'
    · subst isStart
      have first := start.next (by decide)
      have last := first.skipWhile decides_endsName.not
      have name := cut_between (by rwa [List.takeWhile_append_dropWhile]) last
      have attributes := attributesFrom_eq (List.dropWhile_suffix _).length_le last
      rw [if_pos rfl, scan, name, attributes]
      cases scanAttributes cs.length (cs.dropWhile (!endsName ·)) with
      | none => rfl
      | some names => rfl
    · rw [if_neg isStart, scan]
      · rfl
      · exact fun _ eq => isStart (List.cons.inj eq).1

/-- On every text the scan of the bytes comes to an end without a wrong step, and finds what the
scan of the characters finds.  On a start tag as it is written, this is the name of the tag and
the names of its attributes in order, those that declare namespaces left out. -/
theorem scanBytes_total_exact (text : String) :
    scanBytes text = (scan text.toList).elim (.error .unread) .ok ∧
    ∀ word words, Written word words text.toList →
      scan text.toList =
        some ⟨String.ofList word, (words.filter (!isDeclaration ·)).map String.ofList⟩ ∧
      scanBytes text =
        .ok ⟨String.ofList word, (words.filter (!isDeclaration ·)).map String.ofList⟩ := by
  refine ⟨scanBytes_eq text, fun word words written => ?_⟩
  have found := scan_of_written written
  refine ⟨found, ?_⟩
  rw [scanBytes_eq, found]
  rfl

/-- Names of more than one byte a character, and values that hold what ends a tag. -/
theorem scanBytes_total_exact_accented :
    Written "é:ä".toList ["x".toList, "xmlns:q".toList, "q:ñ".toList]
      "<é:ä x\t=\n'a>/\"b' xmlns:q = \"=\" q:ñ='' />é<".toList ∧
    scanBytes "<é:ä x\t=\n'a>/\"b' xmlns:q = \"=\" q:ñ='' />é<" =
      .ok ⟨"é:ä", ["x", "q:ñ"]⟩ := by
  have none : IsGaps [] := List.forall_mem_nil _
  have blank : IsGaps [' '] := by simp [IsGaps, isGap]
  have tab : IsGaps ['\t'] := by simp [IsGaps, isGap]
  have feed : IsGaps ['\n'] := by simp [IsGaps, isGap]
  -- the attributes are put in front of the end of the tag one by one
  have cons (word value : List Char) {before after rest : List Char} {quote : Char}
      {words : List (List Char)} (isWord : IsWord word) (gapsBefore : IsGaps before)
      (gapsAfter : IsGaps after) (isQuote : quote = '"' ∨ quote = '\'') (inside : quote ∉ value)
      (more : Attributes words rest) : Attributes (word :: words)
        (' ' :: (word ++ (before ++ '=' :: (after ++ quote :: (value ++ quote :: rest))))) :=
    .cons (List.cons_ne_nil _ _) blank isWord gapsBefore gapsAfter isQuote inside more
  have closes : Attributes [] " />é<".toList := .close blank
  have third := cons "q:ñ".toList [] (by decide +kernel) none none (.inr rfl) (by decide) closes
  have second := cons "xmlns:q".toList "=".toList (by decide +kernel) blank blank (.inl rfl)
    (by decide +kernel) third
  have first := cons "x".toList "a>/\"b".toList (by decide +kernel) tab feed (.inr rfl)
    (by decide +kernel) second
  have written : Written "é:ä".toList ["x".toList, "xmlns:q".toList, "q:ñ".toList]
      "<é:ä x\t=\n'a>/\"b' xmlns:q = \"=\" q:ñ='' />é<".toList :=
    .intro (by decide +kernel) first
  have found := ((scanBytes_total_exact _).2 _ _ written).2
  refine ⟨written, found.trans ?_⟩
  decide +kernel

end SamlSeal.Xml.StartTag
