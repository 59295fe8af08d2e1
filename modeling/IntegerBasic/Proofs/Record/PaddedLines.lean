import IntegerBasic.Proofs.Grammar.NumberLeaves
import IntegerBasic.Proofs.Record.RoundTrip

/-!
# The padded text of any line

A number is padded to at most three digits or not at all, so padding makes a line longer by a factor
at most, also where it is broken and some of its numbers are padded twice. A line that is not full
of digits has no number that is refused, and it is stored whatever else stands in it. Padding also
leaves the number of the line in place: all other numbers stand behind it, and none of them right
behind it.
-/

namespace IntegerBasic.Record

open Grammar Lexeme

theorem digitCount_of_gaps {s : List Char} (h : ∀ c ∈ s, Text.isGap c = true) :
    digitCount s = 0 := by
  refine List.countP_eq_zero.2 fun c hc => ?_
  have hgap := h c hc
  simp only [Text.isGap, Bool.or_eq_true, beq_iff_eq] at hgap
  rcases hgap with rfl | rfl <;> decide

theorem digitCount_withoutSpaces (s : List Char) :
    digitCount (Text.withoutSpaces s) = digitCount s := by
  rw [digitCount, Text.withoutSpaces, List.countP_filter]
  refine List.countP_congr fun c _ => ?_
  constructor
  · intro h
    exact (Bool.and_eq_true_iff.1 h).1
  · intro h
    rw [h, Bool.true_and, bne_iff_ne]
    rintro rfl
    cases h

/-- The zeros that are put before a number are all that is added to its digits. -/
theorem digitCount_padNumber (text : List Char) :
    digitCount (padNumber text) = 3 - (Text.withoutSpaces text).length + digitCount text := by
  have hfront : digitCount (text.takeWhile Text.isGap) = 0 :=
    digitCount_of_gaps fun c hc => of_mem_takeWhile hc
  have hback : digitCount (text.drop (Text.dropTail Text.isGap text).length) = 0 := by
    rw [drop_dropTail]
    refine digitCount_of_gaps fun c hc => ?_
    exact of_mem_takeWhile (List.mem_reverse.1 hc)
  have hzeros : ∀ n, digitCount (List.replicate n '0') = n := fun n => by
    simp [digitCount, List.countP_replicate]
  rw [padNumber, digitCount_append, digitCount_append, hfront, hback, List.leftpad,
    digitCount_append, hzeros, digitCount_withoutSpaces, Nat.zero_add, Nat.add_zero]

/-- A padded number has three digits, or as many as it had. -/
theorem digitCount_padNumber_le (text : List Char) :
    digitCount (padNumber text) ≤ max 3 (digitCount text) := by
  have hlength : digitCount text ≤ (Text.withoutSpaces text).length := by
    rw [← digitCount_withoutSpaces]
    exact List.countP_le_length
  rw [digitCount_padNumber]
  omega

theorem countP_splice_le (p : Char → Bool) (s new : List Char) {start stop : Nat}
    (h : start ≤ stop) : (splice s start stop new).countP p ≤ s.countP p + new.countP p := by
  have hdrop : (s.drop stop).countP p ≤ (s.drop start).countP p :=
    (List.drop_sublist_drop_left s h).countP_le
  have hsplit : s.countP p = (s.take start).countP p + (s.drop start).countP p := by
    rw [← List.countP_append, List.take_append_drop]
  rw [splice, List.countP_append, List.countP_append]
  omega

theorem digitCount_padEach_le {leaves : List Leaf}
    (h : ∀ l ∈ leaves, l.kind.isNumber = true ∧ l.span.start.col ≤ l.span.stop.col ∧
      1 ≤ digitCount l.text) (s : List Char) :
    digitCount (padEach leaves s) ≤ digitCount s + 3 * numberDigits leaves := by
  induction leaves with
  | nil => exact Nat.le_add_right _ _
  | cons l leaves ih =>
    obtain ⟨⟨hnumber, hspan, hdigit⟩, h⟩ := List.forall_mem_cons.1 h
    have hmore := ih h
    have hsplice : digitCount (padEach (l :: leaves) s) ≤
        digitCount (padEach leaves s) + digitCount (padNumber l.text) :=
      countP_splice_le Char.isDigit _ _ hspan
    have hpad := digitCount_padNumber_le l.text
    rw [numberDigits, if_pos hnumber]
    omega

theorem numberDigits_numbers (tree : Node) :
    numberDigits (numbers tree) = numberDigits tree.leaves := by
  unfold numbers
  induction tree.leaves with
  | nil => rfl
  | cons l leaves ih => cases hnumber : l.kind.isNumber <;> simp [hnumber, numberDigits, ih]

theorem one_le_digitCount {text : List Char} (h : IsInteger text) : 1 ≤ digitCount text := by
  obtain ⟨c, more, rfl, hc⟩ := h.head
  rw [digitCount, List.countP_cons_of_pos hc]
  omega

def laterNumbers (row : Int) (s number rest : List Char) : List Leaf :=
  (Node.leavesOf (statements (Input.after ⟨row, 0, s⟩ number rest))).filter (·.kind.isNumber)

section Line

variable {row : Int} {s number rest : List Char}

theorem numbers_of_none (hs : lineNumber s = none) : numbers (line row s) = [] := by
  simp [numbers, line, hs, unnumbered, LeafKind.isNumber]

theorem numbers_of_some (hs : lineNumber s = some (number, rest)) :
    numbers (line row s) =
      Input.leafOf ⟨row, 0, s⟩ .lineNumber number :: laterNumbers row s number rest := by
  rw [numbers, leaves_line hs, List.filter_cons_of_pos rfl, laterNumbers]

theorem standsIn_laterNumbers (hs : lineNumber s = some (number, rest)) :
    ∀ l ∈ laterNumbers row s number rest, l.kind.isNumber = true ∧ l.StandsIn s number.length := by
  intro l hl
  obtain ⟨hl, hnumber⟩ := List.mem_filter.1 hl
  have hi : (Input.after ⟨row, 0, s⟩ number rest).On row s :=
    (Input.On.first row s).after (append_of_lineNumber hs)
  have hcol : (Input.after ⟨row, 0, s⟩ number rest).col = number.length := Nat.zero_add _
  refine ⟨hnumber, ?_⟩
  rw [← hcol]
  exact numbersStand_statementsUpTo _ _ hi l hl hnumber

theorem one_le_digitCount_lineNumber (hs : lineNumber s = some (number, rest)) :
    1 ≤ digitCount number := by
  obtain ⟨gaps, text, rfl, -, htext, -, -⟩ := lineNumber_some hs
  have := one_le_digitCount htext
  rw [digitCount_append]
  omega

/-- A padded line has at most seven times the digits of the line. -/
theorem digitCount_padNumbers_le (s : List Char) :
    digitCount (padNumbers s) ≤ 7 * digitCount s := by
  have hnumbers : ∀ l ∈ numbers (line 0 s), l.kind.isNumber = true ∧
      l.span.start.col ≤ l.span.stop.col ∧ 1 ≤ digitCount l.text := by
    cases hs : lineNumber s with
    | none => simp [numbers_of_none hs]
    | some pair =>
      rw [numbers_of_some hs]
      refine List.forall_mem_cons.2 ⟨⟨rfl, Nat.zero_le _, one_le_digitCount_lineNumber hs⟩, ?_⟩
      intro l hl
      obtain ⟨hnumber, hstands⟩ := standsIn_laterNumbers hs l hl
      refine ⟨hnumber, ?_, one_le_digitCount hstands.isInteger⟩
      rw [hstands.stop]
      exact Nat.le_add_right _ _
  calc digitCount (padNumbers s)
      = digitCount (padEach (numbers (line 0 s)) s) := rfl
    _ ≤ digitCount s + 3 * numberDigits (numbers (line 0 s)) := digitCount_padEach_le hnumbers s
    _ ≤ digitCount s + 3 * (2 * digitCount s) := by
        rw [numberDigits_numbers]
        exact Nat.add_le_add_left (Nat.mul_le_mul_left 3 (numberDigits_line_le 0 s)) _
    _ = 7 * digitCount s := by omega

/-- No number of a line has more digits than the line. -/
theorem digitCount_number_le {l : Leaf} (hl : l ∈ (line row s).leaves)
    (hnumber : l.kind.isNumber = true) : digitCount l.text ≤ digitCount s := by
  have hl : l ∈ numbers (line row s) := List.mem_filter.2 ⟨hl, hnumber⟩
  cases hs : lineNumber s with
  | none =>
    rw [numbers_of_none hs] at hl
    cases hl
  | some pair =>
    rw [numbers_of_some hs] at hl
    rcases List.mem_cons.1 hl with rfl | hl
    · rw [← append_of_lineNumber hs, digitCount_append]
      exact Nat.le_add_right _ _
    · rw [(standsIn_laterNumbers hs l hl).2.text]
      exact digitCount_le_of_sublist ((List.take_sublist _ _).trans (List.drop_sublist _ _))

end Line

/-- Only a number with too many digits is refused. -/
theorem exists_storeLeaf {l : Leaf}
    (h : l.kind.isNumber = true → digitCount l.text ≤ Numeral.digitLimit) :
    ∃ bytes, storeLeaf l = .ok bytes := by
  have hread : l.kind.isNumber = true →
      Numeral.readToken l.text = .ok (Numeral.digitsValue l.text) := by
    intro hnumber
    have hle := h hnumber
    rw [digitCount, List.countP_eq_length_filter] at hle
    exact Numeral.readToken_of_le hle
  unfold storeLeaf
  cases hkind : l.kind with
  | lineNumber | lineArgument | integer =>
    rw [hkind] at hread
    rw [hread rfl]
    exact ⟨_, rfl⟩
  | token | name | string | comment | error => exact ⟨_, rfl⟩

theorem exists_forall₂ {α β : Type} {R : α → β → Prop} {xs : List α} (h : ∀ x ∈ xs, ∃ y, R x y) :
    ∃ ys, List.Forall₂ R xs ys := by
  induction xs with
  | nil => exact ⟨[], .nil⟩
  | cons x xs ih =>
    obtain ⟨⟨y, hy⟩, h⟩ := List.forall_mem_cons.1 h
    obtain ⟨ys, hys⟩ := ih h
    exact ⟨y :: ys, .cons hy hys⟩

/-- A line with at most 500 digits has a body, whatever it looks like. -/
theorem exists_body {s : List Char} (h : digitCount s ≤ 500) : ∃ bytes, body s = .ok bytes := by
  have hleaves : ∀ l ∈ (line 0 (padNumbers s)).leaves, ∃ bytes, storeLeaf l = .ok bytes := by
    intro l hl
    refine exists_storeLeaf fun hnumber => ?_
    have hdigits := digitCount_number_le hl hnumber
    have hpadded := digitCount_padNumbers_le s
    have hlimit : Numeral.digitLimit = 4300 := rfl
    omega
  obtain ⟨parts, hparts⟩ := exists_forall₂ hleaves
  exact ⟨parts.flatten, by rw [body, storeLeaves, mapM_ok_iff.2 hparts]; rfl⟩

/-- Replacing leaves behind some text leaves this text alone. -/
theorem exists_padEach {front : List Char} {leaves : List Leaf}
    (h : ∀ l ∈ leaves, front.length ≤ l.span.start.col) (s : List Char) :
    ∃ s', padEach leaves (front ++ s) = front ++ s' := by
  induction leaves with
  | nil => exact ⟨s, rfl⟩
  | cons l leaves ih =>
    obtain ⟨hl, h⟩ := List.forall_mem_cons.1 h
    obtain ⟨s', hs'⟩ := ih h
    refine ⟨s'.take (l.span.start.col - front.length) ++ padNumber l.text ++
      (front ++ s').drop l.span.stop.col, ?_⟩
    show splice (padEach leaves (front ++ s)) _ _ _ = _
    rw [hs', splice, List.take_append, List.take_of_length_le hl]
    simp only [List.append_assoc]

def paddedRest (s number rest : List Char) : List Char :=
  (padEach (laterNumbers 0 s number rest) s).drop number.length

theorem padNumbers_split {s number rest : List Char} (hs : lineNumber s = some (number, rest)) :
    padNumbers s = padNumber number ++ paddedRest s number rest := by
  rw [padNumbers, padEach, numbers_of_some hs, List.foldr_cons]
  simp [splice, paddedRest, padEach, Input.leafOf, Input.point]

/-- Behind its padded number the line goes on with the same character. -/
theorem head?_paddedRest {s number rest : List Char} (hs : lineNumber s = some (number, rest)) :
    (paddedRest s number rest).head? = rest.head? := by
  obtain ⟨-, -, -, -, -, hends, hsplit⟩ := lineNumber_some hs
  have hbehind : ∀ l ∈ laterNumbers 0 s number rest,
      ∃ c more, rest = c :: more ∧ number.length + 1 ≤ l.span.start.col := by
    intro l hl
    have hstands := (standsIn_laterNumbers hs l hl).2
    have hstart := hstands.start
    obtain ⟨d, hd, hdigit⟩ := hstands.digit
    rw [hsplit, List.getElem?_append_right hstart] at hd
    cases rest with
    | nil => cases hd
    | cons c more =>
      refine ⟨c, more, rfl, Nat.lt_of_le_of_ne hstart fun heq => ?_⟩
      rw [← heq, Nat.sub_self] at hd
      cases hd
      have := hends d rfl
      simp [isDigitOrSpace, hdigit] at this
  rw [paddedRest]
  cases rest with
  | nil =>
    have hnone : laterNumbers 0 s number [] = [] := by
      rw [List.eq_nil_iff_forall_not_mem]
      intro l hl
      obtain ⟨c, more, ⟨⟩, -⟩ := hbehind l hl
    rw [hnone, hsplit]
    simp [padEach]
  | cons c more =>
    have hstart : ∀ l ∈ laterNumbers 0 s number (c :: more),
        (number ++ [c]).length ≤ l.span.start.col := by
      intro l hl
      obtain ⟨_, _, ⟨⟩, hle⟩ := hbehind l hl
      rwa [List.length_append]
    obtain ⟨s', hs'⟩ := exists_padEach hstart more
    rw [List.append_assoc, List.singleton_append, ← hsplit] at hs'
    rw [hs', List.append_assoc, List.drop_left]
    rfl

theorem endsNumber_paddedRest {s number rest : List Char}
    (hs : lineNumber s = some (number, rest)) : EndsNumber (paddedRest s number rest) := by
  obtain ⟨-, -, -, -, -, hends, -⟩ := lineNumber_some hs
  rwa [EndsNumber, head?_paddedRest hs]

/-- A line that begins with spaces and a number is stored with this number in front. -/
theorem exists_body_eq {s number rest : List Char}
    (hs : integer (s.dropWhile isSpace) = some (number, rest)) {bytes : List UInt8}
    (hbody : body s = .ok bytes) :
    ∃ more, bytes = wordBytes (Numeral.digitsValue number) ++ more := by
  obtain ⟨hsplit, hnumber, hends⟩ := integer_some hs
  have hspaces : ∀ c ∈ s.takeWhile isSpace, c = ' ' := fun c hc => by
    simpa [isSpace] using of_mem_takeWhile hc
  have hgaps : ∀ c ∈ s.takeWhile isSpace, Text.isGap c = true :=
    fun c hc => isGap_of_space (hspaces c hc)
  have hline := lineNumber_append hgaps hnumber hends
  rw [← hsplit, List.takeWhile_append_dropWhile] at hline
  have hpad := padNumbers_split hline
  have hends' := endsNumber_paddedRest hline
  obtain ⟨k, hk⟩ := padNumber_eq hspaces hnumber
  have hline' := lineNumber_append hgaps (isInteger_leftpad hnumber 3 k) hends'
  rw [← List.append_assoc, ← hk, ← hpad] at hline'
  rw [body, leaves_line hline'] at hbody
  obtain ⟨first, more, hfirst, -, rfl⟩ := storeLeaves_cons hbody
  obtain ⟨hread, rfl⟩ := storeLeaf_lineNumber hfirst
  rw [readToken_congr (filter_padNumber hspaces hnumber)] at hread
  have hnone : ∀ c ∈ s.takeWhile isSpace, c.isDigit = false := fun c hc => by
    rw [hspaces c hc]
    rfl
  refine ⟨more, ?_⟩
  rw [Numeral.eq_digitsValue hread, Numeral.digitsValue_append_left hnone]

/-- What is not blank has something left without its blanks. -/
theorem upper_withoutBlanks_ne_nil {text : List Char} (h : Text.isBlankText text = false) :
    Text.upper (text.filter (!Text.isBlank ·)) ≠ [] := by
  obtain ⟨c, hc, hblank⟩ := List.all_eq_false.1 h
  have hmem : c ∈ text.filter (!Text.isBlank ·) := List.mem_filter.2 ⟨hc, by simpa using hblank⟩
  obtain ⟨d, more, hfilter⟩ := List.exists_cons_of_ne_nil (List.ne_nil_of_mem hmem)
  rw [hfilter, Text.upper_cons]
  exact List.append_ne_nil_of_left_ne_nil (upperChar_ne_nil d) _

/-- Text without a rule is stored in at least one byte if it is not blank. -/
theorem storeRaw_ne_nil {text : List Char} (h : Text.isBlankText text = false) :
    storeRaw text ≠ [] :=
  fun hnil => upper_withoutBlanks_ne_nil h (List.map_eq_nil_iff.1 hnil)

theorem take_trimLeft (text : List Char) :
    text.take (text.length - (Text.trimLeft text).length) = text.takeWhile Text.isBlank := by
  have hsplit : text.takeWhile Text.isBlank ++ Text.trimLeft text = text :=
    List.takeWhile_append_dropWhile
  have hlength := congrArg List.length hsplit
  rw [List.length_append] at hlength
  conv_lhs => rw [← hsplit]
  exact List.take_left' (by rw [hsplit]; omega)

/-- The error leaf of a line leaves out only blanks. -/
theorem isBlankText_unnumbered (text : List Char) :
    Text.isBlankText ((text.take (Text.trimRight text).length).drop
      (text.length - (Text.trimLeft text).length)) = Text.isBlankText text := by
  generalize hstop : (Text.trimRight text).length = stop
  generalize hstart : text.length - (Text.trimLeft text).length = start
  have hback : Text.isBlankText (text.drop stop) = true := by
    rw [← hstop, Text.trimRight, drop_dropTail]
    exact List.all_eq_true.2 fun c hc => of_mem_takeWhile (List.mem_reverse.1 hc)
  have hfront : Text.isBlankText ((text.take stop).take start) = true := by
    rw [List.take_take, Nat.min_comm, ← List.take_take, ← hstart, take_trimLeft]
    exact List.all_eq_true.2 fun c hc => of_mem_takeWhile (List.mem_of_mem_take hc)
  conv_rhs =>
    rw [← List.take_append_drop stop text, ← List.take_append_drop start (text.take stop),
      Text.isBlankText, List.all_append, List.all_append, ← Text.isBlankText, ← Text.isBlankText,
      ← Text.isBlankText, hback, hfront]
  simp

theorem isBlankText_of_digit {s : List Char} (h : 1 ≤ digitCount s) :
    Text.isBlankText s = false := by
  obtain ⟨c, hc, hdigit⟩ := List.countP_pos_iff.1 h
  refine List.all_eq_false.2 ⟨c, hc, ?_⟩
  simp [Text.isBlank_of_isDigit hdigit]

theorem isBlankText_padNumbers {s : List Char} (h : Text.isBlankText s = false) :
    Text.isBlankText (padNumbers s) = false := by
  cases hs : lineNumber s with
  | none => rwa [padNumbers, numbers_of_none hs]
  | some pair =>
    have hdigit := one_le_digitCount_lineNumber hs
    apply isBlankText_of_digit
    rw [padNumbers_split hs, digitCount_append, digitCount_padNumber]
    omega

/-- A line that is not blank has at least one byte in its body. -/
theorem body_ne_nil {s : List Char} (h : Text.isBlankText s = false) {bytes : List UInt8}
    (hbody : body s = .ok bytes) : bytes ≠ [] := by
  have hpadded := isBlankText_padNumbers h
  rw [body] at hbody
  generalize padNumbers s = s' at hbody hpadded
  cases hs : lineNumber s' with
  | none =>
    have hraw : bytes = storeRaw ((s'.take (Text.trimRight s').length).drop
        (s'.length - (Text.trimLeft s').length)) := by
      rw [line, hs, Node.leaves_inner, Node.leavesOf_cons, unnumbered, Node.leaves_leaf,
        Node.leavesOf_nil, List.append_nil] at hbody
      obtain ⟨first, more, hfirst, hmore, rfl⟩ := storeLeaves_cons hbody
      cases hfirst
      cases hmore
      exact List.append_nil _
    rw [hraw]
    apply storeRaw_ne_nil
    rw [isBlankText_unnumbered, hpadded]
  | some pair =>
    rw [leaves_line hs] at hbody
    obtain ⟨first, more, hfirst, -, rfl⟩ := storeLeaves_cons hbody
    obtain ⟨-, rfl⟩ := storeLeaf_lineNumber hfirst
    exact List.cons_ne_nil _ _

end IntegerBasic.Record
