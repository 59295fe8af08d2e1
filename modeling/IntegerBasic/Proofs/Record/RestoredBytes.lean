import IntegerBasic.Proofs.Record.ShownText

/-!
# What shown bytes are stored in

Bytes are shown one after the other, and the text is read again by its escapes. No escape is read
where none was shown: a backslash behind which the rest of an escape would be shown is guarded. But
the guard names the byte of a plain backslash, without the high bit, and so a guarded backslash is
stored in another byte than before. A small letter that is shown as it is comes back as a capital.
All other bytes come back as they were.
-/

namespace IntegerBasic.Record

/-- A backslash that is shown as an escape, because the bytes behind it look like the rest of
one. -/
def isGuarded (b : UInt8) (behind : List UInt8) : Bool :=
  match behind with
  | x :: high :: low :: _ => b == backslash && readsAsEscape x high low
  | _ => false

def storedAgain (escapes : List Int) (b : UInt8) (behind : List UInt8) : UInt8 :=
  if isGuarded b behind then 0x5C
  else if isCapital b || needsEscape escapes b then b
  else b - 32

def restored (escapes : List Int) : List UInt8 → List UInt8
  | [] => []
  | b :: behind => storedAgain escapes b behind :: restored escapes behind

/-- The text of bytes among which there is no terminator. -/
def shown (escapes : List Int) : List UInt8 → List Char
  | [] => []
  | b :: behind => showByte escapes b behind ++ shown escapes behind

theorem showText_eq {escapes terminators : List Int} {bytes : List UInt8}
    (h : ∀ b ∈ bytes, (b.toNat : Int) ∉ terminators) :
    showText escapes terminators bytes = (shown escapes bytes, []) := by
  induction bytes with
  | nil => rfl
  | cons b behind ih =>
    obtain ⟨hb, hmore⟩ := List.forall_mem_cons.1 h
    rw [showText, if_neg (by simpa using hb), ih hmore]
    rfl

variable {escapes : List Int}

inductive Appears (escapes : List Int) (b : UInt8) (behind : List UInt8) : List Char → Prop
  | guarded (h : isGuarded b behind = true) : Appears escapes b behind (escape 0x5C)
  | escaped (h : isGuarded b behind = false) (needs : needsEscape escapes b = true) :
      Appears escapes b behind (escape b)
  | plain (h : isGuarded b behind = false) (hb : b = backslash ∨ needsEscape escapes b = false) :
      Appears escapes b behind [Char.ofNat (b.toNat - 128)]

theorem appears_showPlain {b : UInt8} {behind : List UInt8} (h : isGuarded b behind = false) :
    Appears escapes b behind (showPlain escapes b) := by
  rw [showPlain]
  cases hneeds : needsEscape escapes b with
  | true => exact .escaped h hneeds
  | false => exact .plain h (.inr hneeds)

theorem appears_showByte (escapes : List Int) (b : UInt8) (behind : List UInt8) :
    Appears escapes b behind (showByte escapes b behind) := by
  match behind with
  | x :: high :: low :: more =>
    rw [showByte]
    by_cases hb : b = backslash
    · subst hb
      rw [if_pos (beq_self_eq_true backslash)]
      cases hreads : readsAsEscape x high low with
      | true => exact .guarded hreads
      | false => exact .plain (by simpa [isGuarded] using hreads) (.inl rfl)
    · rw [if_neg (by simpa using hb)]
      exact appears_showPlain (by simp [isGuarded, hb])
  | [] | [_] | [_, _] => exact appears_showPlain rfl

/-- A character other than a backslash is shown for one byte. -/
theorem of_shown_cons {bytes : List UInt8} {c : Char} {text : List Char}
    (h : shown escapes bytes = c :: text) (hc : c ≠ '\\') :
    ∃ b behind, bytes = b :: behind ∧ 128 ≤ b ∧ c = Char.ofNat (b.toNat - 128) ∧
      text = shown escapes behind := by
  cases bytes with
  | nil => cases h
  | cons b behind =>
    rw [shown] at h
    have happears := appears_showByte escapes b behind
    generalize showByte escapes b behind = text' at happears h
    cases happears with
    | guarded => exact absurd (List.cons.inj h).1.symm hc
    | escaped => exact absurd (List.cons.inj h).1.symm hc
    | plain _ hb =>
      obtain ⟨rfl, rfl⟩ := List.cons.inj h
      refine ⟨b, behind, rfl, ?_, rfl, rfl⟩
      rcases hb with rfl | hb
      · decide
      · rw [needsEscape, Bool.or_eq_false_iff] at hb
        simpa using hb.2

/-- Where the rest of an escape is shown, bytes stand that read as one. -/
theorem readsAsEscape_of_shown {bytes : List UInt8} {high low : Char} {text : List Char} {byte : UInt8}
    (h : shown escapes bytes = 'x' :: high :: low :: text) (hbyte : escapeByte? high low = some byte) :
    isGuarded backslash bytes = true := by
  have hhex : Text.isHexDigit high = true ∧ Text.isHexDigit low = true := by
    unfold escapeByte? at hbyte
    rw [Text.isHexDigit, Text.isHexDigit]
    cases hhigh : Text.hexValue? high with
    | none => simp [hhigh] at hbyte
    | some n =>
      cases hlow : Text.hexValue? low with
      | none => simp [hlow] at hbyte
      | some m => exact ⟨rfl, rfl⟩
  have hne : ∀ {c : Char}, Text.isHexDigit c = true → c ≠ '\\' := by
    rintro c hc rfl
    exact absurd hc (by decide)
  have hstored : ∀ {b : UInt8} {c : Char}, Text.isHexDigit c = true → 128 ≤ b →
      c = Char.ofNat (b.toNat - 128) → isStoredHexDigit b = true := by
    intro b c hc hb hchar
    rw [isStoredHexDigit, ← hchar, hc, Bool.and_true, decide_eq_true hb]
  obtain ⟨b₁, behind₁, rfl, hb₁, hc₁, h₁⟩ := of_shown_cons h (by decide)
  obtain ⟨b₂, behind₂, rfl, hb₂, hc₂, h₂⟩ := of_shown_cons h₁.symm (hne hhex.1)
  obtain ⟨b₃, behind₃, rfl, hb₃, hc₃, -⟩ := of_shown_cons h₂.symm (hne hhex.2)
  have hx : b₁ = 0xF8 := eq_highByte hb₁ hc₁.symm
  simp [isGuarded, readsAsEscape, hx, hstored hhex.1 hb₂ hc₂, hstored hhex.2 hb₃ hc₃]

/-- A backslash that is not guarded is stored as it is. -/
theorem storeText_backslash_shown {bytes : List UInt8} (h : isGuarded backslash bytes = false) :
    storeText ('\\' :: shown escapes bytes) = backslash :: storeText (shown escapes bytes) := by
  by_cases hx : ∃ high low text, shown escapes bytes = 'x' :: high :: low :: text
  · obtain ⟨high, low, text, hshown⟩ := hx
    rw [hshown, storeText]
    cases hbyte : escapeByte? high low with
    | none => rfl
    | some byte =>
      rw [readsAsEscape_of_shown hshown hbyte] at h
      cases h
  · rw [storeText]
    · rfl
    · intro high low text _ hshown
      exact hx ⟨high, low, text, hshown⟩

/-- A byte that is shown as its character is stored in this byte, or in that of the capital. -/
theorem storeChars_shown {b : UInt8} (hhigh : 128 ≤ b) (hdel : b ≠ 255) :
    storeChars [Char.ofNat (b.toNat - 128)] = [if isCapital b then b else b - 32] := by
  have key : ∀ b : UInt8, 128 ≤ b → b ≠ 255 →
      storeChars [Char.ofNat (b.toNat - 128)] = [if isCapital b then b else b - 32] :=
    byte_induction (by decide +kernel)
  exact key b hhigh hdel

theorem storeText_shown (escapes : List Int) (bytes : List UInt8) :
    storeText (shown escapes bytes) = restored escapes bytes := by
  induction bytes with
  | nil => rfl
  | cons b behind ih =>
    rw [shown, restored, ← ih, storedAgain]
    have happears := appears_showByte escapes b behind
    generalize showByte escapes b behind = text at happears
    cases happears with
    | guarded hguard => rw [storeText_escape, if_pos hguard]
    | escaped hguard hneeds =>
      rw [storeText_escape, if_neg (by simp [hguard]), if_pos (by simp [hneeds])]
    | plain hguard hb =>
      rw [List.singleton_append, if_neg (by simp [hguard])]
      by_cases hbackslash : b = backslash
      · subst hbackslash
        exact storeText_backslash_shown hguard
      · have hneeds := hb.resolve_left hbackslash
        rw [hneeds, Bool.or_false]
        rw [needsEscape, Bool.or_eq_false_iff, Bool.or_eq_false_iff] at hneeds
        have hhigh : 128 ≤ b := by simpa using hneeds.2
        have hne : Char.ofNat (b.toNat - 128) ≠ '\\' :=
          fun h => hbackslash (eq_highByte hhigh h)
        rw [storeText_cons hne, storeChars_shown hhigh (by simpa using hneeds.1.2)]
        rfl

/-- The bytes hold a backslash, a small `x` and two hexadecimal digits. -/
def HoldsEscape (bytes : List UInt8) : Prop :=
  ∃ high low, isStoredHexDigit high = true ∧ isStoredHexDigit low = true ∧
    [backslash, 0xF8, high, low] <:+: bytes

theorem isGuarded_iff {b : UInt8} {behind : List UInt8} :
    isGuarded b behind = true ↔ ∃ high low, isStoredHexDigit high = true ∧
      isStoredHexDigit low = true ∧ [backslash, 0xF8, high, low] <+: b :: behind := by
  constructor
  · intro h
    match behind, h with
    | x :: high :: low :: more, h =>
      simp only [isGuarded, readsAsEscape, Bool.and_eq_true, beq_iff_eq] at h
      obtain ⟨rfl, ⟨rfl, hhigh⟩, hlow⟩ := h
      exact ⟨high, low, hhigh, hlow, more, rfl⟩
  · rintro ⟨high, low, hhigh, hlow, more, heq⟩
    obtain ⟨rfl, rfl⟩ := List.cons.inj heq
    simp [isGuarded, readsAsEscape, hhigh, hlow]

theorem holdsEscape_cons {b : UInt8} {behind : List UInt8} :
    HoldsEscape (b :: behind) ↔ isGuarded b behind = true ∨ HoldsEscape behind := by
  rw [isGuarded_iff]
  constructor
  · rintro ⟨high, low, hhigh, hlow, hpart⟩
    rcases List.infix_cons_iff.1 hpart with hstart | hpart
    · exact .inl ⟨high, low, hhigh, hlow, hstart⟩
    · exact .inr ⟨high, low, hhigh, hlow, hpart⟩
  · rintro (⟨high, low, hhigh, hlow, hstart⟩ | ⟨high, low, hhigh, hlow, hpart⟩)
    · exact ⟨high, low, hhigh, hlow, List.infix_cons_iff.2 (.inl hstart)⟩
    · exact ⟨high, low, hhigh, hlow, List.infix_cons_iff.2 (.inr hpart)⟩

/-- Where small letters are shown as escapes, only a guarded backslash changes. -/
theorem storedAgain_eq_iff (hletters : ∀ n : Int, 0xE1 ≤ n → n ≤ 0xFA → n ∈ escapes) (b : UInt8)
    (behind : List UInt8) : storedAgain escapes b behind = b ↔ isGuarded b behind = false := by
  have hplain : (isCapital b || needsEscape escapes b) = true := by
    cases hcapital : isCapital b with
    | true => rfl
    | false =>
      obtain ⟨hlow, hhigh⟩ := isCapital_eq_false_iff.1 hcapital
      rw [UInt8.le_iff_toNat_le] at hlow hhigh
      have hmem := hletters b.toNat (Int.ofNat_le.2 hlow) (Int.ofNat_le.2 hhigh)
      simp [needsEscape, hmem]
  rw [storedAgain, hplain]
  cases hguard : isGuarded b behind with
  | false => simp
  | true =>
    obtain ⟨high, low, -, -, more, heq⟩ := isGuarded_iff.1 hguard
    obtain ⟨rfl, -⟩ := List.cons.inj heq
    decide

theorem restored_eq_iff (hletters : ∀ n : Int, 0xE1 ≤ n → n ≤ 0xFA → n ∈ escapes)
    (bytes : List UInt8) : restored escapes bytes = bytes ↔ ¬HoldsEscape bytes := by
  induction bytes with
  | nil =>
    refine iff_of_true rfl ?_
    rintro ⟨high, low, -, -, hpart⟩
    cases List.infix_nil.1 hpart
  | cons b behind ih =>
    rw [restored, List.cons.injEq, storedAgain_eq_iff hletters, ih, holdsEscape_cons, not_or,
      Bool.not_eq_true]

/-- Bytes without terminators, of which the small letters are shown as escapes, are shown as a text
that is stored in the same bytes exactly if they hold no backslash with what reads as the rest of
an escape behind it. -/
theorem storeText_showText_eq_iff {terminators : List Int} {data : List UInt8}
    (hletters : ∀ n : Int, 0xE1 ≤ n → n ≤ 0xFA → n ∈ escapes)
    (hdata : ∀ b ∈ data, (b.toNat : Int) ∉ terminators) :
    storeText (showText escapes terminators data).1 = data ↔ ¬HoldsEscape data := by
  rw [showText_eq hdata, storeText_shown]
  exact restored_eq_iff hletters data

/-- The guarded backslash comes back as another byte. -/
theorem storeText_showText_guarded :
    storeText (showText ((List.range 26).map fun i : Nat => (225 + i : Int)) [1]
      [0xDC, 0xF8, 0xB0, 0xB0]).1 ≠ [0xDC, 0xF8, 0xB0, 0xB0] := by
  have hletters : ∀ n : Int, 0xE1 ≤ n → n ≤ 0xFA →
      n ∈ (List.range 26).map fun i : Nat => (225 + i : Int) := by
    intro n hlow hhigh
    refine List.mem_map.2 ⟨(n - 225).toNat, ?_, ?_⟩
    · rw [List.mem_range]
      omega
    · omega
  have hdata : ∀ b ∈ ([0xDC, 0xF8, 0xB0, 0xB0] : List UInt8), (b.toNat : Int) ∉ ([1] : List Int) := by
    simp
  rw [Ne, storeText_showText_eq_iff hletters hdata, not_not]
  exact ⟨0xB0, 0xB0, by decide, by decide, List.infix_rfl⟩

/-- What comes back for a byte depends on this byte and on whether it is guarded. -/
theorem storedAgain_eq (escapes : List Int) (b : UInt8) (behind : List UInt8) :
    storedAgain escapes b behind = if isGuarded b behind then 0x5C
      else if 0xE1 ≤ b ∧ b ≤ 0xFA ∧ (b.toNat : Int) ∉ escapes then b - 32 else b := by
  rw [storedAgain]
  by_cases hsmall : 0xE1 ≤ b ∧ b ≤ 0xFA
  · have hcapital := isCapital_eq_false_iff.2 hsmall
    have hdel : b ≠ 255 := by
      rintro rfl
      exact absurd hsmall (by decide)
    have hhigh : ¬b < 128 := by
      rw [UInt8.not_lt]
      exact UInt8.le_trans (by decide) hsmall.1
    have hneeds : needsEscape escapes b = escapes.contains (b.toNat : Int) := by
      rw [needsEscape, beq_eq_false_iff_ne.2 hdel, decide_eq_false hhigh, Bool.or_false,
        Bool.or_false]
    rw [hcapital, hneeds, Bool.false_or]
    by_cases hmem : (b.toNat : Int) ∈ escapes <;> simp [hsmall, hmem]
  · have hcapital : isCapital b = true := by
      rwa [← isCapital_eq_false_iff, Bool.not_eq_false] at hsmall
    have hrest : ¬(0xE1 ≤ b ∧ b ≤ 0xFA ∧ (b.toNat : Int) ∉ escapes) :=
      fun h => hsmall ⟨h.1, h.2.1⟩
    rw [hcapital, Bool.true_or, if_pos rfl, if_neg hrest]

theorem length_restored (escapes : List Int) (bytes : List UInt8) :
    (restored escapes bytes).length = bytes.length := by
  induction bytes with
  | nil => rfl
  | cons b behind ih => rw [restored, List.length_cons, List.length_cons, ih]

theorem getElem?_restored (escapes : List Int) (bytes : List UInt8) (i : Nat) :
    (restored escapes bytes)[i]? =
      bytes[i]?.map fun b => storedAgain escapes b (bytes.drop (i + 1)) := by
  induction bytes generalizing i with
  | nil => rfl
  | cons b behind ih =>
    cases i with
    | zero => rfl
    | succ i =>
      rw [restored, List.getElem?_cons_succ, List.getElem?_cons_succ, List.drop_succ_cons]
      exact ih i

/-- As many bytes come back as were shown. Each is the same as before, but for two kinds: a small
letter that is shown as it is becomes a capital, and a backslash with what reads as the rest of an
escape behind it becomes a byte without the high bit. -/
theorem getElem?_storeText_showText {terminators : List Int} {data : List UInt8}
    (hdata : ∀ b ∈ data, (b.toNat : Int) ∉ terminators) :
    (storeText (showText escapes terminators data).1).length = data.length ∧
      ∀ i b, data[i]? = some b → (storeText (showText escapes terminators data).1)[i]? =
        some (if isGuarded b (data.drop (i + 1)) then 0x5C
          else if 0xE1 ≤ b ∧ b ≤ 0xFA ∧ (b.toNat : Int) ∉ escapes then b - 32 else b) := by
  rw [showText_eq hdata, storeText_shown]
  refine ⟨length_restored escapes data, fun i b hb => ?_⟩
  rw [getElem?_restored, hb, Option.map_some, storedAgain_eq]

/-- A guarded backslash, a small letter that is shown as it is and one that is shown as an
escape. -/
theorem getElem?_storeText_showText_guarded :
    (storeText (showText [0xE2] [1] [0xDC, 0xF8, 0xB0, 0xC6, 0xE1, 0xE2]).1).length = 6 ∧
      ∀ i b, ([0xDC, 0xF8, 0xB0, 0xC6, 0xE1, 0xE2] : List UInt8)[i]? = some b →
        (storeText (showText [0xE2] [1] [0xDC, 0xF8, 0xB0, 0xC6, 0xE1, 0xE2]).1)[i]? =
          some (if isGuarded b
              (([0xDC, 0xF8, 0xB0, 0xC6, 0xE1, 0xE2] : List UInt8).drop (i + 1)) then 0x5C
            else if 0xE1 ≤ b ∧ b ≤ 0xFA ∧ (b.toNat : Int) ∉ ([0xE2] : List Int) then b - 32
            else b) :=
  getElem?_storeText_showText (by simp)

example : storeText (showText [0xE2] [1] [0xDC, 0xF8, 0xB0, 0xC6, 0xE1, 0xE2]).1 =
    [0x5C, 0xD8, 0xB0, 0xC6, 0xC1, 0xE2] := by
  decide +kernel

end IntegerBasic.Record
