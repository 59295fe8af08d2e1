import IntegerBasic.Proofs.Text.Letters
import IntegerBasic.Text.Alphanumeric
import IntegerBasic.Text.Lines

/-!
# Changes of case

A change of case turns letters into the same letters and leaves all else alone. The questions that
readers ask of a character have the same answer before and after.
-/

namespace IntegerBasic

structure CaseChange (f : Char → Char) : Prop where
  letter : ∀ c, c.isAlpha = true → (f c).isAlpha = true
  fold : ∀ c, Text.caseFold (f c) = Text.caseFold c
  other : ∀ c, c.isAlpha = false → f c = c

theorem caseChange_toUpper : CaseChange Char.toUpper := by
  have hascii : ∀ c : Char, 128 ≤ c.toNat → c.toUpper = c := by
    intro c hc
    refine dif_neg ?_
    rintro ⟨-, hle⟩
    have := UInt32.le_iff_toNat_le.1 hle
    exact absurd (Nat.lt_of_le_of_lt this (by decide)) (Nat.not_lt.2 hc)
  have key : ∀ c : Char, c.toNat < 128 → (c.isAlpha = true → c.toUpper.isAlpha = true) ∧
      c.toUpper.toLower = c.toLower ∧ (c.isAlpha = false → c.toUpper = c) ∧
      c.toUpper.toNat < 128 := by
    intro c hc
    exact Text.ascii_induction (P := fun c => (c.isAlpha = true → c.toUpper.isAlpha = true) ∧
      c.toUpper.toLower = c.toLower ∧ (c.isAlpha = false → c.toUpper = c) ∧
      c.toUpper.toNat < 128) (by decide +kernel) hc
  constructor
  · intro c hc
    exact (key c (Text.toNat_lt_of_isAlphanum (by simp [Char.isAlphanum, hc]))).1 hc
  · intro c
    by_cases hc : c.toNat < 128
    · rw [Text.caseFold_of_ascii hc, Text.caseFold_of_ascii (key c hc).2.2.2, (key c hc).2.1]
    · rw [hascii c (Nat.not_lt.1 hc)]
  · intro c hletter
    by_cases hc : c.toNat < 128
    · exact (key c hc).2.2.1 hletter
    · exact hascii c (Nat.not_lt.1 hc)

namespace CaseChange

variable {f : Char → Char} (hf : CaseChange f)
include hf

/-- A question that all letters answer alike is answered alike before and after. -/
theorem question {p : Char → Bool} (b : Bool) (hp : ∀ c, c.isAlpha = true → p c = b) (c : Char) :
    p (f c) = p c := by
  cases hc : c.isAlpha with
  | true => rw [hp c hc, hp _ (hf.letter c hc)]
  | false => rw [hf.other c hc]

theorem question_ascii {p : Char → Bool} (b : Bool)
    (hp : ∀ n < 128, (Char.ofNat n).isAlpha = true → p (Char.ofNat n) = b) (c : Char) :
    p (f c) = p c := by
  refine hf.question b (fun c hc => ?_) c
  exact Text.ascii_induction (P := fun c => c.isAlpha = true → p c = b) hp
    (Text.toNat_lt_of_isAlphanum (by simp [Char.isAlphanum, hc])) hc

theorem isDigit (c : Char) : (f c).isDigit = c.isDigit :=
  hf.question_ascii false (by decide +kernel) c

theorem of_isDigit {c : Char} (hc : c.isDigit = true) : f c = c := by
  refine hf.other c ?_
  exact Text.ascii_induction (P := fun c => c.isDigit = true → c.isAlpha = false)
    (by decide +kernel) (Text.toNat_lt_of_isAlphanum (by simp [Char.isAlphanum, hc])) hc

theorem isAlphanum (c : Char) : (f c).isAlphanum = c.isAlphanum :=
  hf.question true (fun c hc => by simp [Char.isAlphanum, hc]) c

theorem isAlpha (c : Char) : (f c).isAlpha = c.isAlpha :=
  hf.question true (fun _ hc => hc) c

theorem isGap (c : Char) : Text.isGap (f c) = Text.isGap c :=
  hf.question_ascii false (by decide +kernel) c

theorem isBlank (c : Char) : Text.isBlank (f c) = Text.isBlank c :=
  hf.question_ascii false (by decide +kernel) c

theorem isAlphanumeric (c : Char) : Text.isAlphanumeric (f c) = Text.isAlphanumeric c := by
  refine hf.question true (fun c hc => ?_) c
  have hnum : c.isAlphanum = true := by simp [Char.isAlphanum, hc]
  rw [Text.isAlphanumeric_of_ascii (Text.toNat_lt_of_isAlphanum hnum), hnum]

theorem sameLetter (letter c : Char) :
    Lexeme.sameLetter letter (f c) = Lexeme.sameLetter letter c := by
  rw [Lexeme.sameLetter, Lexeme.sameLetter, hf.fold]

/-- A mark stays what it is, and nothing becomes one. -/
theorem beq_mark {m : Char} (hm : m.isAlpha = false) (c : Char) : (f c == m) = (c == m) := by
  refine hf.question (p := (· == m)) false (fun c hc => ?_) c
  rw [beq_eq_false_iff_ne]
  rintro rfl
  rw [hm] at hc
  cases hc

theorem some_beq_mark {m : Char} (hm : m.isAlpha = false) (c : Char) :
    (some (f c) == some m) = (some c == some m) := hf.beq_mark hm c

theorem eq_mark {m : Char} (hm : m.isAlpha = false) (c : Char) : f c = m ↔ c = m := by
  rw [← beq_iff_eq, hf.beq_mark hm, beq_iff_eq]

theorem isSpace (c : Char) : Lexeme.isSpace (f c) = Lexeme.isSpace c := hf.beq_mark rfl c

theorem isDigitOrSpace (c : Char) : Lexeme.isDigitOrSpace (f c) = Lexeme.isDigitOrSpace c := by
  rw [Lexeme.isDigitOrSpace, Lexeme.isDigitOrSpace, hf.isDigit, hf.beq_mark rfl]

omit hf in
theorem takeWhile_map {p : Char → Bool} (hp : ∀ c, p (f c) = p c) (s : List Char) :
    (s.map f).takeWhile p = (s.takeWhile p).map f := by
  rw [List.takeWhile_map, show p ∘ f = p from funext hp]

omit hf in
theorem dropWhile_map {p : Char → Bool} (hp : ∀ c, p (f c) = p c) (s : List Char) :
    (s.map f).dropWhile p = (s.dropWhile p).map f := by
  rw [List.dropWhile_map, show p ∘ f = p from funext hp]

theorem head?_eq_mark {m : Char} (hm : m.isAlpha = false) (s : List Char) :
    (s.map f).head? = some m ↔ s.head? = some m := by
  cases s with
  | nil => simp
  | cons c s => simpa using hf.eq_mark hm c

theorem rows_map (s : List Char) : Text.rows (s.map f) = (Text.rows s).map (List.map f) := by
  induction s with
  | nil => rfl
  | cons c s ih =>
    rw [List.map_cons, Text.rows, Text.rows, ih]
    by_cases hc : c = '\n'
    · rw [if_pos ((hf.eq_mark rfl c).2 hc), if_pos hc]
      rfl
    · rw [if_neg fun h => hc ((hf.eq_mark rfl c).1 h), if_neg hc]
      cases Text.rows s <;> rfl

theorem dropReturn_map (row : List Char) :
    Text.dropReturn (row.map f) = (Text.dropReturn row).map f := by
  have hlast : (row.map f).getLast? = some '\r' ↔ row.getLast? = some '\r' := by
    rw [List.getLast?_map]
    cases row.getLast? with
    | none => simp
    | some c => simpa using hf.eq_mark rfl c
  rw [Text.dropReturn, Text.dropReturn]
  by_cases h : row.getLast? = some '\r'
  · rw [if_pos (hlast.2 h), if_pos h, List.map_dropLast]
  · rw [if_neg fun hmap => h (hlast.1 hmap), if_neg h]

theorem lines_map (s : List Char) : Text.lines (s.map f) = (Text.lines s).map (List.map f) := by
  rw [Text.lines, hf.rows_map, Text.lines]
  generalize Text.rows s = rs
  induction rs with
  | nil => rfl
  | cons row rs ih =>
    cases rs with
    | nil => rfl
    | cons next rs =>
      rw [List.map_cons, List.map_cons, Text.dropReturns, hf.dropReturn_map, ← List.map_cons, ih]
      · rfl
      · simp

theorem isBlankText_map (s : List Char) : Text.isBlankText (s.map f) = Text.isBlankText s := by
  rw [Text.isBlankText, Text.isBlankText, List.all_map, show Text.isBlank ∘ f = Text.isBlank from
    funext hf.isBlank]

end CaseChange

end IntegerBasic
