import Mathlib.Data.List.Infix
import IntegerBasic.Proofs.Text.Letters
import IntegerBasic.Record.Encoding

/-!
# Text that is shown reads back

The bytes of a string or a remark are shown as text that is stored in the same bytes, as long as
no byte stands for a small letter. A backslash is never taken for the start of an escape then,
since no small `x` is ever shown behind it.
-/

namespace IntegerBasic.Record

def isCapital (b : UInt8) : Bool := !(0xE1 ≤ b && b ≤ 0xFA)

theorem isCapital_eq_false_iff {b : UInt8} : isCapital b = false ↔ 0xE1 ≤ b ∧ b ≤ 0xFA := by
  simp [isCapital]

/-- A byte that an escape may name in a text that is to be listed and stored again: it ends neither
a line nor a string, and it is shown neither as a quote nor as a small letter. -/
def isListable (b : UInt8) : Bool := b != 0x01 && b != 0x29 && b != 0xA2 && isCapital b

def EscapesListable (text : List Char) : Prop :=
  ∀ high low b, ['\\', 'x', high, low] <:+: text → escapeByte? high low = some b →
    isListable b = true

def beginsListable : List Char → Bool
  | '\\' :: 'x' :: high :: low :: _ => (escapeByte? high low).all isListable
  | _ => true

theorem escapesListable_iff (text : List Char) :
    EscapesListable text ↔ ∀ s ∈ text.tails, beginsListable s = true := by
  constructor
  · intro h s hs
    by_cases hescape : ∃ high low rest, s = '\\' :: 'x' :: high :: low :: rest
    · obtain ⟨high, low, rest, rfl⟩ := hescape
      rw [List.mem_tails] at hs
      rw [beginsListable]
      cases hbyte : escapeByte? high low with
      | none => rfl
      | some b => exact h high low b ((List.prefix_append _ rest).isInfix.trans hs.isInfix) hbyte
    · rw [beginsListable]
      exact fun high low rest heq => hescape ⟨high, low, rest, heq⟩
  · intro h high low b hpart hbyte
    obtain ⟨s, ⟨rest, rfl⟩, hs⟩ := List.infix_iff_prefix_suffix.1 hpart
    have := h _ ((List.mem_tails _ _).2 hs)
    rw [List.cons_append, List.cons_append, List.cons_append, List.cons_append, beginsListable,
      hbyte] at this
    exact this

instance (text : List Char) : Decidable (EscapesListable text) :=
  decidable_of_iff _ (escapesListable_iff text).symm

/-- A character that has a key of its own: ASCII without the controls. -/
def isPrintable (c : Char) : Bool := 32 ≤ c.toNat && c.toNat ≤ 126

theorem byte_induction {P : UInt8 → Prop} (h : ∀ n < 256, P (UInt8.ofNat n)) (b : UInt8) : P b := by
  have hb := h b.toNat b.toNat_lt
  rwa [UInt8.ofNat_toNat] at hb

/-- The number of a byte is among those of some marks exactly if the byte is one of them. -/
theorem mem_marks_iff (marks : List UInt8) (b : UInt8) :
    (b.toNat : Int) ∈ marks.map (fun m => (m.toNat : Int)) ↔ b ∈ marks := by
  rw [List.mem_map]
  constructor
  · rintro ⟨m, hm, heq⟩
    rwa [← UInt8.toNat_inj.1 (Int.ofNat_inj.1 heq)]
  · exact fun h => ⟨b, h, rfl⟩

/-- A byte with the high bit set is the byte of its character. -/
theorem eq_highByte {b : UInt8} {c : Char} (hb : 128 ≤ b) (h : Char.ofNat (b.toNat - 128) = c) :
    b = highByte c := by
  have key : ∀ b : UInt8, 128 ≤ b → b = highByte (Char.ofNat (b.toNat - 128)) :=
    byte_induction (by decide +kernel)
  rw [← h]
  exact key b hb

theorem visible_of_mem_escape {b : UInt8} {c : Char} (h : c ∈ escape b) :
    32 ≤ c.toNat ∧ c ≠ '"' := by
  have key : ∀ b : UInt8, ∀ c ∈ escape b, 32 ≤ c.toNat ∧ c ≠ '"' :=
    byte_induction (by decide +kernel)
  exact key b c h

def beginsEscape : List Char → Bool
  | '\\' :: 'x' :: high :: low :: _ => (escapeByte? high low).isSome
  | _ => false

theorem beginsEscape_iff {s : List Char} : beginsEscape s = true ↔
    ∃ high low b rest, s = '\\' :: 'x' :: high :: low :: rest ∧ escapeByte? high low = some b := by
  constructor
  · intro h
    by_cases hescape : ∃ high low rest, s = '\\' :: 'x' :: high :: low :: rest
    · obtain ⟨high, low, rest, rfl⟩ := hescape
      obtain ⟨b, hb⟩ := Option.isSome_iff_exists.1 h
      exact ⟨high, low, b, rest, rfl, hb⟩
    · rw [beginsEscape] at h
      · cases h
      · exact fun high low rest heq => hescape ⟨high, low, rest, heq⟩
  · rintro ⟨high, low, b, rest, rfl, hb⟩
    rw [beginsEscape, hb]
    rfl

theorem beginsEscape_of_ne {c : Char} (h : c ≠ '\\') (s : List Char) :
    beginsEscape (c :: s) = false := by
  rw [Bool.eq_false_iff]
  intro hbegins
  obtain ⟨high, low, b, rest, heq, -⟩ := beginsEscape_iff.1 hbegins
  exact h (List.cons.inj heq).1

theorem beginsEscape_of_head {s : List Char} (h : s.head? ≠ some 'x') :
    beginsEscape ('\\' :: s) = false := by
  rw [Bool.eq_false_iff]
  intro hbegins
  obtain ⟨high, low, b, rest, heq, -⟩ := beginsEscape_iff.1 hbegins
  exact h (by rw [(List.cons.inj heq).2]; rfl)

/-- A character that begins no escape is stored by itself. -/
theorem storeText_char {c : Char} {rest : List Char} (h : beginsEscape (c :: rest) = false) :
    storeText (c :: rest) = storeChars [c] ++ storeText rest := by
  by_cases hescape : ∃ high low more, c :: rest = '\\' :: 'x' :: high :: low :: more
  · obtain ⟨high, low, more, heq⟩ := hescape
    cases heq
    rw [beginsEscape, Option.isSome_eq_false_iff, Option.isNone_iff_eq_none] at h
    rw [storeText, h]
  · rw [storeText]
    rintro high low more rfl rfl
    exact hescape ⟨high, low, more, rfl⟩

/-- A text is stored from the front, an escape or a character at a time. -/
@[elab_as_elim]
theorem text_induction {motive : List Char → Prop} (nil : motive [])
    (escape : ∀ high low b rest, escapeByte? high low = some b → motive rest →
      motive ('\\' :: 'x' :: high :: low :: rest))
    (char : ∀ c rest, beginsEscape (c :: rest) = false → motive rest → motive (c :: rest))
    (text : List Char) : motive text := by
  induction hlength : text.length using Nat.strong_induction_on generalizing text with
  | h length ih =>
    subst hlength
    cases text with
    | nil => exact nil
    | cons c rest =>
      cases hbegins : beginsEscape (c :: rest) with
      | false => exact char c rest hbegins (ih _ (Nat.lt_succ_self _) rest rfl)
      | true =>
        obtain ⟨high, low, b, more, heq, hbyte⟩ := beginsEscape_iff.1 hbegins
        cases heq
        exact escape high low b more hbyte (ih _ (by simp only [List.length_cons]; omega) more rfl)

theorem storeText_cons {c : Char} (h : c ≠ '\\') (rest : List Char) :
    storeText (c :: rest) = storeChars [c] ++ storeText rest :=
  storeText_char (beginsEscape_of_ne h rest)

/-- A backslash that no `x` follows is stored as it is. -/
theorem storeText_backslash {rest : List Char} (h : rest.head? ≠ some 'x') :
    storeText ('\\' :: rest) = backslash :: storeText rest :=
  storeText_char (beginsEscape_of_head h)

theorem storeText_escape (b : UInt8) (rest : List Char) :
    storeText (escape b ++ rest) = b :: storeText rest := by
  have key : ∀ b : UInt8, escapeByte? (Text.hexDigit (b.toNat / 16)) (Text.hexDigit b.toNat) =
      some b := byte_induction (by decide +kernel)
  show storeText ('\\' :: 'x' :: Text.hexDigit (b.toNat / 16) :: Text.hexDigit b.toNat :: rest) = _
  rw [storeText, key]

structure Shows (text : List Char) (bytes : List UInt8) : Prop where
  store : storeText text = bytes
  head : text.head? ≠ some 'x'
  newline : '\n' ∉ text ∧ '\r' ∉ text
  quote : '"' ∈ text → 0xA2 ∈ bytes

theorem Shows.nil : Shows [] [] := ⟨rfl, by simp, by simp, by simp⟩

theorem Shows.escape {text : List Char} {bytes : List UInt8} (h : Shows text bytes) (b : UInt8) :
    Shows (escape b ++ text) (b :: bytes) := by
  have hline : '\n' ∉ Record.escape b := fun h => absurd (visible_of_mem_escape h).1 (by decide)
  have hreturn : '\r' ∉ Record.escape b := fun h => absurd (visible_of_mem_escape h).1 (by decide)
  have hquote : '"' ∉ Record.escape b := fun h => (visible_of_mem_escape h).2 rfl
  refine ⟨by rw [storeText_escape, h.store], by simp [Record.escape], ⟨?_, ?_⟩, fun hmem => ?_⟩
  · simpa [hline] using h.newline.1
  · simpa [hreturn] using h.newline.2
  · rcases List.mem_append.1 hmem with hmem | hmem
    · exact absurd hmem hquote
    · exact List.mem_cons_of_mem _ (h.quote hmem)

theorem Shows.backslash {text : List Char} {bytes : List UInt8} (h : Shows text bytes) :
    Shows ('\\' :: text) (backslash :: bytes) := by
  refine ⟨by rw [storeText_backslash h.head, h.store], by simp, ?_, fun hmem => ?_⟩
  · simpa using h.newline
  · exact List.mem_cons_of_mem _ (h.quote (by simpa using hmem))

structure PlainChar (b : UInt8) (c : Char) : Prop where
  store : storeChars [c] = [b]
  small : c ≠ 'x'
  backslash : c = '\\' → b = Record.backslash
  newline : c = '\n' → b = 138
  carriage : c = '\r' → b = 141
  quote : c = '"' → b = 0xA2

theorem plainChar {b : UInt8} (hcapital : isCapital b = true) (hhigh : 128 ≤ b) (hdel : b ≠ 255) :
    PlainChar b (Char.ofNat (b.toNat - 128)) := by
  have hstore : ∀ b : UInt8, isCapital b = true → 128 ≤ b → b ≠ 255 →
      storeChars [Char.ofNat (b.toNat - 128)] = [b] := byte_induction (by decide +kernel)
  have hsmall : Char.ofNat (b.toNat - 128) ≠ 'x' := by
    intro h
    rw [eq_highByte hhigh h] at hcapital
    exact absurd hcapital (by decide)
  exact ⟨hstore b hcapital hhigh hdel, hsmall, eq_highByte hhigh, eq_highByte hhigh,
    eq_highByte hhigh, eq_highByte hhigh⟩

section Show

variable {escapes : List Int} (hline : 138 ∈ escapes) (hreturn : 141 ∈ escapes)
include hline hreturn

theorem Shows.plain {text : List Char} {bytes : List UInt8} (h : Shows text bytes) {b : UInt8}
    (hb : isCapital b = true) : Shows (showPlain escapes b ++ text) (b :: bytes) := by
  rw [showPlain]
  by_cases hneeds : needsEscape escapes b = true
  · rw [if_pos hneeds]
    exact h.escape b
  · rw [if_neg hneeds]
    rw [needsEscape, Bool.or_eq_true, Bool.or_eq_true, not_or, not_or, List.contains_iff_mem,
      beq_iff_eq, decide_eq_true_eq] at hneeds
    obtain ⟨⟨hescape, hdel⟩, hlow⟩ := hneeds
    have hchar := plainChar hb (by simpa using hlow) hdel
    generalize Char.ofNat (b.toNat - 128) = c at hchar
    rw [List.singleton_append]
    by_cases hc : c = '\\'
    · rw [hc, hchar.backslash hc]
      exact h.backslash
    · refine ⟨?_, by simpa using hchar.small, ⟨fun hmem => ?_, fun hmem => ?_⟩, fun hmem => ?_⟩
      · rw [storeText_cons hc, hchar.store, h.store]
        rfl
      · rcases List.mem_cons.1 hmem with hmem | hmem
        · rw [hchar.newline hmem.symm] at hescape
          exact hescape hline
        · exact h.newline.1 hmem
      · rcases List.mem_cons.1 hmem with hmem | hmem
        · rw [hchar.carriage hmem.symm] at hescape
          exact hescape hreturn
        · exact h.newline.2 hmem
      · rcases List.mem_cons.1 hmem with hmem | hmem
        · rw [hchar.quote hmem.symm]
          exact List.mem_cons_self
        · exact List.mem_cons_of_mem _ (h.quote hmem)

/-- Bytes that stand for no small letters are shown as text that is stored in them. -/
theorem exists_showText {terminators : List Int} {bytes : List UInt8}
    (hbytes : ∀ b ∈ bytes, isCapital b = true ∧ (b.toNat : Int) ∉ terminators) {stop : UInt8}
    (hcapital : isCapital stop = true) (hstop : (stop.toNat : Int) ∈ terminators)
    (tail : List UInt8) :
    ∃ text, showText escapes terminators (bytes ++ stop :: tail) = (text, stop :: tail) ∧
      Shows text bytes := by
  induction bytes with
  | nil => exact ⟨[], by simp [showText, hstop], .nil⟩
  | cons b bytes ih =>
    obtain ⟨⟨hb, hterminator⟩, hmore⟩ := List.forall_mem_cons.1 hbytes
    obtain ⟨text, htext, hshows⟩ := ih hmore
    refine ⟨showByte escapes b (bytes ++ stop :: tail) ++ text, ?_, ?_⟩
    · rw [List.cons_append, showText, if_neg (by simpa using hterminator), htext]
    · -- the byte behind a backslash is no small letter, so it begins no escape
      have hbehind : ∀ x ∈ (bytes ++ stop :: tail).head?, isCapital x = true := by
        intro x hx
        cases bytes with
        | nil =>
          cases hx
          exact hcapital
        | cons y bytes =>
          obtain rfl := Option.some.inj hx
          exact (hmore y List.mem_cons_self).1
      generalize bytes ++ stop :: tail = behind at hbehind
      rcases behind with _ | ⟨x, _ | ⟨high, _ | ⟨low, more⟩⟩⟩
      · exact hshows.plain hline hreturn hb
      · exact hshows.plain hline hreturn hb
      · exact hshows.plain hline hreturn hb
      rw [showByte]
      by_cases hbackslash : b = backslash
      · have hreads : readsAsEscape x high low = false := by
          have hne : (x == 0xF8) = false := by
            rw [beq_eq_false_iff_ne]
            rintro rfl
            cases hbehind _ rfl
          rw [readsAsEscape, hne]
          rfl
        rw [if_pos (by simpa using hbackslash), hreads, hbackslash]
        exact hshows.backslash
      · rw [if_neg (by simpa using hbackslash)]
        exact hshows.plain hline hreturn hb

end Show

/-- A character has an upper case. -/
theorem upperChar_ne_nil (c : Char) : Text.upperChar c ≠ [] := by
  have hexpansions : ∀ p ∈ Text.upperExpansions, p.2 ≠ [] := by decide
  unfold Text.upperChar
  dsimp only
  split
  · simp
  · cases hfind : Text.upperExpansions.find? (·.1 == c.toNat) with
    | some expansion => simpa using hexpansions _ (List.mem_of_find?_eq_some hfind)
    | none =>
      dsimp only
      split <;> simp

theorem length_storeChars_pos (c : Char) : 0 < (storeChars [c]).length := by
  have := List.length_pos_iff.2 (upperChar_ne_nil c)
  simpa [storeChars] using this

/-- What a printable character is stored in. -/
theorem storeChars_printable {c : Char} (h : isPrintable c = true) :
    ∃ b, storeChars [c] = [b] ∧ isCapital b = true ∧ b ≠ 0x01 ∧ b ≠ 0x29 ∧
      (b = 0xA2 → c = '"') := by
  have hlt : c.toNat < 128 := by
    simp only [isPrintable, Bool.and_eq_true, decide_eq_true_eq] at h
    omega
  have key : isPrintable c = true → isCapital (highByte c.toUpper) = true ∧
      highByte c.toUpper ≠ 0x01 ∧ highByte c.toUpper ≠ 0x29 ∧
      (highByte c.toUpper = 0xA2 → c = '"') :=
    Text.ascii_induction (P := fun c => isPrintable c = true →
      isCapital (highByte c.toUpper) = true ∧ highByte c.toUpper ≠ 0x01 ∧
        highByte c.toUpper ≠ 0x29 ∧ (highByte c.toUpper = 0xA2 → c = '"'))
      (by decide +kernel) hlt
  refine ⟨highByte c.toUpper, ?_, key h⟩
  rw [storeChars, Text.upper_cons, Text.upper_nil, List.append_nil, Text.upperChar_of_ascii hlt]
  rfl

/-- What the bytes of a text are like whose escapes can be listed. -/
theorem mem_storeText {text : List Char} (hprint : ∀ c ∈ text, isPrintable c = true)
    (hescapes : EscapesListable text) :
    ∀ b ∈ storeText text, isCapital b = true ∧ b ≠ 0x01 ∧ b ≠ 0x29 ∧
      (b = 0xA2 → '"' ∈ text) := by
  have hpart : ∀ {s t : List Char}, s <:+ t → EscapesListable t → EscapesListable s :=
    fun hs ht high low b hmem => ht high low b (hmem.trans hs.isInfix)
  have hchar : ∀ {c : Char} {rest : List Char}, (∀ d ∈ c :: rest, isPrintable d = true) →
      (∀ b ∈ storeText rest, isCapital b = true ∧ b ≠ 0x01 ∧ b ≠ 0x29 ∧
        (b = 0xA2 → '"' ∈ rest)) →
      ∀ b ∈ storeChars [c] ++ storeText rest, isCapital b = true ∧ b ≠ 0x01 ∧ b ≠ 0x29 ∧
        (b = 0xA2 → '"' ∈ c :: rest) := by
    intro c rest hprint hrest b hb
    obtain ⟨b', hstore, hcapital, hend, hclose, hquote⟩ :=
      storeChars_printable (hprint c List.mem_cons_self)
    rw [hstore] at hb
    rcases List.mem_cons.1 hb with rfl | hb
    · exact ⟨hcapital, hend, hclose, fun h => by rw [hquote h]; exact List.mem_cons_self⟩
    · obtain ⟨hcapital, hend, hclose, hquote⟩ := hrest b hb
      exact ⟨hcapital, hend, hclose, fun h => List.mem_cons_of_mem _ (hquote h)⟩
  induction text using text_induction with
  | nil => simp [storeText]
  | escape high low b rest hbyte ih =>
    have hsuffix : rest <:+ '\\' :: 'x' :: high :: low :: rest := ⟨['\\', 'x', high, low], rfl⟩
    have hrest := ih (fun c hc => hprint c (hsuffix.subset hc)) (hpart hsuffix hescapes)
    have hlistable := hescapes high low b ⟨[], rest, rfl⟩ hbyte
    simp only [isListable, Bool.and_eq_true, bne_iff_ne] at hlistable
    obtain ⟨⟨⟨hend, hclose⟩, hquote⟩, hcapital⟩ := hlistable
    rw [storeText, hbyte]
    intro b' hb'
    rcases List.mem_cons.1 hb' with rfl | hb'
    · exact ⟨hcapital, hend, hclose, fun h => absurd h hquote⟩
    · obtain ⟨hcapital, hend, hclose, hquote⟩ := hrest b' hb'
      exact ⟨hcapital, hend, hclose, fun h => hsuffix.subset (hquote h)⟩
  | char c rest hbegins ih =>
    rw [storeText_char hbegins]
    exact hchar hprint (ih (fun c hc => hprint c (List.mem_cons_of_mem _ hc))
      (hpart (List.suffix_cons _ _) hescapes))

theorem storeText_ne_nil {text : List Char} (h : text ≠ []) : storeText text ≠ [] := by
  cases text using text_induction with
  | nil => exact absurd rfl h
  | escape high low b rest hbyte _ =>
    rw [storeText, hbyte]
    exact List.cons_ne_nil _ _
  | char c rest hbegins _ =>
    rw [storeText_char hbegins]
    exact List.append_ne_nil_of_left_ne_nil
      (List.ne_nil_of_length_pos (length_storeChars_pos c)) _

/-- The bytes of a text are shown up to what ends them, and there is no quote in what is shown if
there was none in the text. -/
theorem exists_showText_storeText {escapes : List Int} (hline : 138 ∈ escapes)
    (hreturn : 141 ∈ escapes) {text : List Char} (hprint : ∀ c ∈ text, isPrintable c = true)
    (hescapes : EscapesListable text) {terminators : List UInt8}
    (hterminators : ∀ b ∈ terminators, b = endOfLine ∨ b = closeQuote) {stop : UInt8}
    (hstop : stop ∈ terminators) (tail : List UInt8) :
    ∃ shown, showText escapes (terminators.map (·.toNat)) (storeText text ++ stop :: tail) =
        (shown, stop :: tail) ∧ Shows shown (storeText text) ∧ ('"' ∈ shown → '"' ∈ text) := by
  have hbytes := mem_storeText hprint hescapes
  have hall : ∀ b ∈ storeText text,
      isCapital b = true ∧ (b.toNat : Int) ∉ terminators.map fun b : UInt8 => (b.toNat : Int) := by
    intro b hb
    obtain ⟨hcapital, hend, hclose, -⟩ := hbytes b hb
    exact ⟨hcapital, fun hmem => (hterminators b ((mem_marks_iff _ b).1 hmem)).elim hend hclose⟩
  have hcapital : isCapital stop = true := by
    rcases hterminators stop hstop with rfl | rfl <;> decide
  obtain ⟨shown, hshow, hshows⟩ := exists_showText hline hreturn hall hcapital
    ((mem_marks_iff _ stop).2 hstop) tail
  exact ⟨shown, hshow, hshows, fun hquote => (hbytes _ (hshows.quote hquote)).2.2.2 rfl⟩

end IntegerBasic.Record
