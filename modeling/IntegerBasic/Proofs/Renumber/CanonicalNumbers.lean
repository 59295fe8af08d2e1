import Mathlib.Data.List.Induction
import IntegerBasic.Proofs.Renumber.Numbering

/-!
# Numbers that are written canonically

A number is written canonically if no tab is in it, no space stands between its digits, and it does
not begin with a zero that could be left out. What is then left of it when another number takes its
place, the spaces around it, is enough to write it down again.
-/

namespace IntegerBasic

namespace Numeral

theorem digitChar_of_isDigit {c : Char} (h : c.isDigit = true) :
    (c.toNat - '0'.toNat).digitChar = c := by
  have key : ∀ d < 10, Nat.digitChar d = Char.ofNat (d + 48) := by decide
  obtain ⟨hlow, hhigh⟩ := Text.toNat_of_isDigit h
  have hzero : '0'.toNat = 48 := rfl
  rw [hzero, key _ (by omega), Nat.sub_add_cancel hlow, Char.ofNat_toNat]

/-- Digits without a zero at the front are those that their value is written with. -/
theorem decimal_digitsValue {digits : List Char} (hdigits : ∀ c ∈ digits, c.isDigit = true)
    (hne : digits ≠ []) (hzero : digits.head? = some '0' → digits = ['0']) :
    decimal (digitsValue digits) = digits := by
  have hvalue : digitsValue digits = Nat.ofDigitChars 10 digits 0 := by
    rw [digitsValue, List.filter_eq_self.2 hdigits, valueOf, List.foldl_map]
    rfl
  rw [hvalue]
  clear hvalue
  induction digits using List.reverseRecOn with
  | nil => exact absurd rfl hne
  | append_singleton front c ih =>
    have hc : c.isDigit = true := hdigits c (by simp)
    have hten : c.toNat - '0'.toNat < 10 := by
      have := (Text.toNat_of_isDigit hc).2
      have : '0'.toNat = 48 := rfl
      omega
    have hlast : Nat.toDigits 10 (c.toNat - '0'.toNat) = [c] := by
      rw [Nat.toDigits_of_lt_base hten, digitChar_of_isDigit hc]
    rw [Nat.ofDigitChars_append, Nat.ofDigitChars_cons, Nat.ofDigitChars_nil, decimal]
    cases front with
    | nil => simpa using hlast
    | cons d more =>
      have hd : d ≠ '0' := by
        rintro rfl
        have := hzero rfl
        simp at this
      have hfront : Nat.toDigits 10 (Nat.ofDigitChars 10 (d :: more) 0) = d :: more :=
        ih (fun x hx => hdigits x (List.mem_append_left _ hx)) (by simp)
          fun h => absurd (Option.some.inj h) hd
      -- only zero is written with a zero in front
      have hpos : 0 < Nat.ofDigitChars 10 (d :: more) 0 := by
        rw [Nat.pos_iff_ne_zero]
        intro h
        rw [h] at hfront
        exact hd (List.cons.inj hfront).1.symm
      rw [← Nat.toDigits_append_toDigits (by decide) hpos hten, hlast, hfront]

end Numeral

namespace Renumber

/-- A number without a tab, with its digits side by side and with no zero to spare in front. -/
structure Canonical (text : List Char) : Prop where
  noTab : '\t' ∉ text
  together : ∀ c ∈ Text.trim text, c.isDigit = true
  noZero : (Text.trim text).head? = some '0' → Text.trim text = ['0']

instance (text : List Char) : Decidable (Canonical text) :=
  decidable_of_iff ('\t' ∉ text ∧ (Text.trim text).all Char.isDigit = true ∧
      ((Text.trim text).head? = some '0' → Text.trim text = ['0']))
    ⟨fun h => ⟨h.1, List.all_eq_true.1 h.2.1, h.2.2⟩,
      fun h => ⟨h.noTab, List.all_eq_true.2 h.together, h.noZero⟩⟩

def spaced (leading : Nat) (digits : List Char) (trailing : Nat) : List Char :=
  List.replicate leading ' ' ++ (digits ++ List.replicate trailing ' ')

variable {digits : List Char} (hdigits : ∀ c ∈ digits, c.isDigit = true) (hne : digits ≠ [])

include hdigits hne

theorem trimLeft_spaced (leading trailing : Nat) :
    Text.trimLeft (spaced leading digits trailing) = digits ++ List.replicate trailing ' ' := by
  obtain ⟨c, more, rfl⟩ := List.exists_cons_of_ne_nil hne
  have hblank : ∀ d ∈ List.replicate leading ' ', Text.isBlank d = true := by
    intro d hd
    rw [List.eq_of_mem_replicate hd]
    rfl
  have hc := Text.isBlank_of_isDigit (hdigits c List.mem_cons_self)
  rw [Text.trimLeft, spaced, List.dropWhile_append_of_pos hblank, List.cons_append,
    List.dropWhile_cons_of_neg (by simp [hc])]

theorem trimRight_spaced (leading trailing : Nat) :
    Text.trimRight (spaced leading digits trailing) = List.replicate leading ' ' ++ digits := by
  have hmirror : Text.trimLeft (spaced trailing digits.reverse leading) =
      digits.reverse ++ List.replicate leading ' ' :=
    trimLeft_spaced (fun c hc => hdigits c (List.mem_reverse.1 hc)) (by simpa using hne) _ _
  rw [Text.trimLeft] at hmirror
  have hreverse : (spaced leading digits trailing).reverse =
      spaced trailing digits.reverse leading := by
    simp [spaced]
  rw [Text.trimRight, Text.dropTail, hreverse, hmirror, List.reverse_append, List.reverse_reverse,
    List.reverse_replicate]

/-- Another number takes the place of the digits, and the spaces stay. -/
theorem rewritten_spaced (leading trailing n : Nat) :
    rewritten (spaced leading digits trailing) n = spaced leading (Numeral.decimal n) trailing := by
  have hlength : (spaced leading digits trailing).length =
      leading + (digits.length + trailing) := by
    simp [spaced]
  have hleft : (spaced leading digits trailing).length -
      (digits ++ List.replicate trailing ' ').length = leading := by
    rw [hlength, List.length_append, List.length_replicate]
    omega
  have hright : (spaced leading digits trailing).length -
      (List.replicate leading ' ' ++ digits).length = trailing := by
    rw [hlength, List.length_append, List.length_replicate]
    omega
  rw [rewritten, trimLeft_spaced hdigits hne, trimRight_spaced hdigits hne, hleft, hright,
    Numeral.decimalInt_natCast, spaced, List.append_assoc]

omit hdigits hne

/-- Gaps without a tab are spaces. -/
theorem spaces_of_isGap {gaps : List Char} (hgaps : ∀ c ∈ gaps, Text.isGap c = true)
    (htab : '\t' ∉ gaps) : gaps = List.replicate gaps.length ' ' := by
  refine List.eq_replicate_iff.2 ⟨rfl, fun c hc => ?_⟩
  have hgap := hgaps c hc
  simp only [Text.isGap, Bool.or_eq_true, beq_iff_eq] at hgap
  refine hgap.resolve_right ?_
  rintro rfl
  exact htab hc

/-- Behind the digits of a number stand spaces. -/
theorem exists_trailing {number : List Char} (h : Lexeme.IsInteger number) :
    ∃ trailing, number = Text.trimRight number ++ List.replicate trailing ' ' := by
  have hsplit : number =
      Text.trimRight number ++ (number.reverse.takeWhile Text.isBlank).reverse := by
    rw [Text.trimRight, Text.dropTail, ← List.reverse_append, List.takeWhile_append_dropWhile,
      List.reverse_reverse]
  refine ⟨(number.reverse.takeWhile Text.isBlank).length, ?_⟩
  rw [← List.reverse_replicate]
  nth_rewrite 1 [hsplit]
  congr 2
  refine List.eq_replicate_iff.2 ⟨rfl, fun c hc => ?_⟩
  have hblank : Text.isBlank c = true := List.all_eq_true.1 List.all_takeWhile c hc
  have hmem : c ∈ number := List.mem_reverse.1 ((List.takeWhile_sublist _).subset hc)
  have hall := h.all c hmem
  simp only [Lexeme.isDigitOrSpace, Bool.or_eq_true, beq_iff_eq] at hall
  refine hall.resolve_left fun hdigit => ?_
  rw [Text.isBlank_of_isDigit hdigit] at hblank
  cases hblank

/-- A number that is written canonically is its digits with spaces around them. -/
theorem exists_spaced {gaps number : List Char} (hgaps : ∀ c ∈ gaps, Text.isGap c = true)
    (hnumber : Lexeme.IsInteger number) (h : Canonical (gaps ++ number)) :
    ∃ digits leading trailing, gaps ++ number = spaced leading digits trailing ∧
      (∀ c ∈ digits, c.isDigit = true) ∧ digits ≠ [] ∧
      (digits.head? = some '0' → digits = ['0']) := by
  obtain ⟨htab, htogether, hzero⟩ := h
  have htrim : Text.trim (gaps ++ number) = Text.trimRight number := by
    have hleft := trimLeft_append hgaps hnumber []
    rw [List.append_nil] at hleft
    rw [Text.trim, hleft]
  rw [htrim] at htogether hzero
  have hgaps' := spaces_of_isGap hgaps fun hmem => htab (List.mem_append_left _ hmem)
  obtain ⟨trailing, hsplit⟩ := exists_trailing hnumber
  refine ⟨Text.trimRight number, gaps.length, trailing, ?_, htogether, fun hnil => ?_, hzero⟩
  · rw [spaced, ← hgaps', ← hsplit]
  · -- a number begins with a digit
    obtain ⟨c, more, hcons, hc⟩ := hnumber.head
    have hmem : c ∈ number := hcons ▸ List.mem_cons_self
    rw [hsplit, hnil, List.nil_append] at hmem
    rw [List.eq_of_mem_replicate hmem] at hc
    cases hc

/-- Where another number was written, the old one can be written again. -/
theorem rewritten_back {gaps number : List Char} (hgaps : ∀ c ∈ gaps, Text.isGap c = true)
    (hnumber : Lexeme.IsInteger number) (h : Canonical (gaps ++ number)) (n : Nat) :
    rewritten (rewritten (gaps ++ number) n) (Numeral.digitsValue (gaps ++ number)) =
      gaps ++ number := by
  obtain ⟨digits, leading, trailing, htext, hdigits, hne, hzero⟩ := exists_spaced hgaps hnumber h
  have hspaces : ∀ k, ∀ c ∈ List.replicate k ' ', c.isDigit = false := by
    intro k c hc
    rw [List.eq_of_mem_replicate hc]
    rfl
  have hvalue : Numeral.digitsValue (gaps ++ number) = Numeral.digitsValue digits := by
    rw [htext, spaced, Numeral.digitsValue_append_left (hspaces _),
      Numeral.digitsValue_append_right (hspaces _)]
  rw [hvalue, htext, rewritten_spaced hdigits hne,
    rewritten_spaced (fun c => Numeral.isDigit_of_mem_decimal) (Numeral.decimal_ne_nil n),
    Numeral.decimal_digitsValue hdigits hne hzero]

end Renumber

end IntegerBasic
