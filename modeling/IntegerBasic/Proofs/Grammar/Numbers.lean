import IntegerBasic.Grammar.Lexeme
import IntegerBasic.Numeral

/-!
# Written numbers

A number in a program is a digit with digits and spaces behind it, as far as they go. So a number
written in decimal digits with spaces behind it is read back whole, as long as neither a digit nor
a space follows.
-/

namespace IntegerBasic

namespace Numeral

theorem isDigit_of_mem_decimal {n : Nat} {c : Char} (h : c ∈ decimal n) : c.isDigit = true :=
  Nat.isDigit_of_mem_toDigits (by decide) (by decide) h

theorem decimal_ne_nil (n : Nat) : decimal n ≠ [] := Nat.toDigits_ne_nil

theorem decimalInt_natCast (n : Nat) : decimalInt n = decimal n := by
  simp [decimalInt]

/-- The digits of a number have its value. -/
theorem digitsValue_decimal (n : Nat) : digitsValue (decimal n) = n := by
  have hfilter : (decimal n).filter Char.isDigit = decimal n :=
    List.filter_eq_self.2 fun c hc => isDigit_of_mem_decimal hc
  rw [digitsValue, hfilter, valueOf, List.foldl_map]
  exact Nat.ofDigitChars_ten_toDigits

theorem length_decimal_le {n : Nat} (h : n < 100000) : (decimal n).length ≤ 5 :=
  (Nat.length_toDigits_le_iff (by decide) (by decide)).2 h

/-- What is no digit does not count. -/
theorem digitsValue_append_left {xs : List Char} (h : ∀ c ∈ xs, c.isDigit = false)
    (ys : List Char) : digitsValue (xs ++ ys) = digitsValue ys := by
  have hfilter : xs.filter Char.isDigit = [] :=
    List.filter_eq_nil_iff.2 fun c hc => by simp [h c hc]
  rw [digitsValue, List.filter_append, hfilter, List.nil_append, digitsValue]

theorem digitsValue_append_right {ys : List Char} (h : ∀ c ∈ ys, c.isDigit = false)
    (xs : List Char) : digitsValue (xs ++ ys) = digitsValue xs := by
  have hfilter : ys.filter Char.isDigit = [] :=
    List.filter_eq_nil_iff.2 fun c hc => by simp [h c hc]
  rw [digitsValue, List.filter_append, hfilter, List.append_nil, digitsValue]

/-- Only a number with too many digits is refused. -/
theorem readToken_of_le {text : List Char} (h : (text.filter Char.isDigit).length ≤ digitLimit) :
    readToken text = .ok (digitsValue text) := by
  rw [readToken, if_neg (Nat.not_lt.2 h)]

theorem eq_digitsValue {text : List Char} {n : Nat} (h : readToken text = .ok n) :
    n = digitsValue text := by
  unfold readToken at h
  dsimp only at h
  split at h
  · cases h
  · cases h
    rfl

end Numeral

namespace Text

theorem toNat_of_isDigit {c : Char} (h : c.isDigit = true) : 48 ≤ c.toNat ∧ c.toNat ≤ 57 := by
  simp only [Char.isDigit, Bool.and_eq_true, decide_eq_true_eq] at h
  exact ⟨UInt32.le_iff_toNat_le.1 h.1, UInt32.le_iff_toNat_le.1 h.2⟩

/-- A digit is no blank. -/
theorem isBlank_of_isDigit {c : Char} (h : c.isDigit = true) : isBlank c = false := by
  obtain ⟨hlow, hhigh⟩ := toNat_of_isDigit h
  simp only [isBlank, Bool.or_eq_false_iff, Bool.and_eq_false_iff, decide_eq_false_iff_not,
    beq_eq_false_iff_ne]
  omega

end Text

namespace Lexeme

def EndsNumber (rest : List Char) : Prop := ∀ c ∈ rest.head?, isDigitOrSpace c = false

structure IsInteger (text : List Char) : Prop where
  head : ∃ c more, text = c :: more ∧ c.isDigit = true
  all : ∀ c ∈ text, isDigitOrSpace c = true

/-- A number is read whole if nothing behind it could belong to it. -/
theorem integer_append {text rest : List Char} (h : IsInteger text) (hrest : EndsNumber rest) :
    integer (text ++ rest) = some (text, rest) := by
  obtain ⟨c, more, rfl, hc⟩ := h.head
  have hmore : ∀ d ∈ more, isDigitOrSpace d = true :=
    fun d hd => h.all d (List.mem_cons_of_mem _ hd)
  have hnone : rest.takeWhile isDigitOrSpace = [] ∧ rest.dropWhile isDigitOrSpace = rest := by
    cases rest with
    | nil => exact ⟨rfl, rfl⟩
    | cons d rest =>
      have hd : isDigitOrSpace d = false := hrest d rfl
      simp [hd]
  rw [List.cons_append, integer, if_pos hc, List.takeWhile_append_of_pos hmore,
    List.dropWhile_append_of_pos hmore, hnone.1, hnone.2, List.append_nil]

/-- What is read as a number is one, and nothing behind it belongs to it. -/
theorem integer_some {s text rest : List Char} (h : integer s = some (text, rest)) :
    s = text ++ rest ∧ IsInteger text ∧ EndsNumber rest := by
  refine ⟨(append_of_integer h).symm, ?_⟩
  obtain ⟨c, more, rfl, hc, rfl, rfl⟩ := integer_eq_some h
  refine ⟨⟨⟨c, _, rfl, hc⟩, ?_⟩, ?_⟩
  · intro d hd
    rcases List.mem_cons.1 hd with rfl | hd
    · simp [isDigitOrSpace, hc]
    · exact List.all_eq_true.1 List.all_takeWhile d hd
  · intro d hd
    have := List.head?_dropWhile_not isDigitOrSpace more
    rwa [hd] at this

/-- A number of a line: gaps and a number behind them. -/
theorem lineNumber_append {gaps text rest : List Char} (hgaps : ∀ c ∈ gaps, Text.isGap c = true)
    (h : IsInteger text) (hrest : EndsNumber rest) :
    lineNumber (gaps ++ (text ++ rest)) = some (gaps ++ text, rest) := by
  obtain ⟨c, more, rfl, hc⟩ := h.head
  have hgap : Text.isGap c = false := by
    cases hg : Text.isGap c with
    | false => rfl
    | true =>
      simp only [Text.isGap, Bool.or_eq_true, beq_iff_eq] at hg
      rcases hg with rfl | rfl <;> revert hc <;> decide
  have htake : (gaps ++ (c :: more ++ rest)).takeWhile Text.isGap = gaps := by
    rw [List.takeWhile_append_of_pos hgaps]
    simp [hgap]
  have hdrop : (gaps ++ (c :: more ++ rest)).dropWhile Text.isGap = c :: more ++ rest := by
    rw [List.dropWhile_append_of_pos hgaps]
    simp [hgap]
  rw [lineNumber, htake, hdrop, integer_append h hrest]
  rfl

theorem lineNumber_some {s number rest : List Char} (h : lineNumber s = some (number, rest)) :
    ∃ gaps text, number = gaps ++ text ∧ (∀ c ∈ gaps, Text.isGap c = true) ∧ IsInteger text ∧
      EndsNumber rest ∧ s = number ++ rest := by
  obtain ⟨⟨text, rest'⟩, hinteger, heq⟩ := Option.map_eq_some_iff.1 h
  cases heq
  obtain ⟨hs, htext, hrest⟩ := integer_some hinteger
  refine ⟨_, text, rfl, fun c hc => List.all_eq_true.1 List.all_takeWhile c hc, htext, hrest, ?_⟩
  exact (append_of_lineNumber h).symm

end Lexeme

end IntegerBasic
