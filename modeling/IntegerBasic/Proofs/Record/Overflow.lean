import IntegerBasic.Proofs.Grammar.Overflow
import IntegerBasic.Proofs.Record.PaddedLines
import IntegerBasic.Record.Stack

/-!
# Programs that nest too deep

A program is stored with limited room as it is stored without a limit, or one of its lines may nest
too deep for the room. Padding opens nothing, so the text of the line says it for both readings.
-/

namespace IntegerBasic.Record

open Grammar Lexeme

theorem opens_of_isDigitOrSpace {c : Char} (h : isDigitOrSpace c = true) : opens c = false := by
  simp only [isDigitOrSpace, Bool.or_eq_true, beq_iff_eq] at h
  cases h with
  | inl h =>
    have hparen : c ≠ '(' := by
      rintro rfl
      cases h
    have hletter : sameLetter 'H' c = false := sameLetter_of_isDigit (by decide) h
    simp [opens, hparen, hletter]
  | inr h => subst h; decide

theorem opens_of_isGap {c : Char} (h : Text.isGap c = true) : opens c = false := by
  simp only [Text.isGap, Bool.or_eq_true, beq_iff_eq] at h
  cases h with
  | inl h => subst h; decide
  | inr h => subst h; decide

theorem nesting_eq_zero {text : List Char} (h : ∀ c ∈ text, opens c = false) : nesting text = 0 :=
  List.countP_eq_zero.2 fun c hc => by simp [h c hc]

/-- Padding puts zeros into a number, and nothing else. -/
theorem nesting_padNumber {text : List Char} (h : ∀ c ∈ text, opens c = false) :
    nesting (padNumber text) = 0 := by
  refine nesting_eq_zero fun c hc => ?_
  simp only [padNumber, List.leftpad, Text.withoutSpaces, List.mem_append, List.mem_replicate,
    List.mem_filter] at hc
  obtain (hc | ⟨-, rfl⟩ | hc) | hc := hc
  · exact h c (List.takeWhile_subset _ hc)
  · decide
  · exact h c hc.1
  · exact h c (List.drop_subset _ _ hc)

theorem nesting_padEach_le {leaves : List Leaf}
    (h : ∀ l ∈ leaves, l.span.start.col ≤ l.span.stop.col ∧ ∀ c ∈ l.text, opens c = false)
    (s : List Char) : nesting (padEach leaves s) ≤ nesting s := by
  induction leaves with
  | nil => exact le_rfl
  | cons l leaves ih =>
    obtain ⟨⟨hspan, htext⟩, h⟩ := List.forall_mem_cons.1 h
    have hmore := ih h
    have hpad := nesting_padNumber htext
    have hsplice : nesting (padEach (l :: leaves) s) ≤
        nesting (padEach leaves s) + nesting (padNumber l.text) :=
      countP_splice_le opens _ _ hspan
    omega

theorem nesting_padNumbers_le (s : List Char) : nesting (padNumbers s) ≤ nesting s := by
  refine nesting_padEach_le ?_ s
  cases hs : lineNumber s with
  | none => simp [numbers_of_none hs]
  | some pair =>
    obtain ⟨number, rest⟩ := pair
    rw [numbers_of_some hs]
    refine List.forall_mem_cons.2 ⟨⟨Nat.zero_le _, ?_⟩, ?_⟩
    · obtain ⟨gaps, text, rfl, hgaps, htext, -, -⟩ := lineNumber_some hs
      intro c hc
      cases List.mem_append.1 hc with
      | inl hc => exact opens_of_isGap (hgaps c hc)
      | inr hc => exact opens_of_isDigitOrSpace (htext.all c hc)
    · intro l hl
      obtain ⟨-, hstands⟩ := standsIn_laterNumbers hs l hl
      refine ⟨?_, fun c hc => opens_of_isDigitOrSpace (hstands.isInteger.all c hc)⟩
      rw [hstands.stop]
      exact Nat.le_add_right _ _

theorem padNumbersOn_cases (calls : Nat) (text : List Char) :
    padNumbersOn calls text = .error .depth ∧ calls < 4 * nesting text + 11 ∨
      padNumbersOn calls text = .ok (padNumbers text) := by
  unfold padNumbersOn
  cases lineOn_cases (calls - 1) 0 text with
  | inl hdeep => exact .inl ⟨by rw [hdeep.1]; rfl, by omega⟩
  | inr hread => exact .inr (by rw [hread]; rfl)

theorem bodyOn_cases (calls : Nat) (text : List Char) :
    bodyOn calls text = .error .depth ∧ calls < 4 * nesting text + 12 ∨
      bodyOn calls text = (body text).mapError .numeral := by
  unfold bodyOn
  cases padNumbersOn_cases (calls - 1) text with
  | inl hdeep => exact .inl ⟨by rw [hdeep.1]; rfl, by omega⟩
  | inr hpadded =>
    rw [hpadded]
    have hle := nesting_padNumbers_le text
    cases lineOn_cases (calls - 1) 0 (padNumbers text) with
    | inl hdeep => exact .inl ⟨by simp [Except.mapError, bind, Except.bind, hdeep.1]; rfl, by omega⟩
    | inr hread => exact .inr (by simp [Except.mapError, bind, Except.bind, hread]; rfl)

theorem ofLineOn_cases (calls : Nat) (row : Int) (text : List Char) :
    ofLineOn calls row text = .error .depth ∧ calls < 4 * nesting text + 12 ∨
      ofLineOn calls row text = ofLine row text := by
  unfold ofLineOn ofLine
  cases bodyOn_cases calls text with
  | inl hdeep => exact .inl ⟨by rw [hdeep.1]; rfl, hdeep.2⟩
  | inr hbody => exact .inr (by rw [hbody])

/-- The lines of a program are stored alike up to one that nests too deep. -/
theorem ofProgramOn_cases (calls : Nat) (text : List Char) :
    ofProgramOn calls text = .error .depth ∧
        (∃ line ∈ Text.lines text, calls < 4 * nesting line + 13) ∨
      ofProgramOn calls text = ofProgram text := by
  have hrows : ∀ p ∈ numberedRows text, p.2 ∈ Text.lines text := by
    intro p hp
    have hmem := List.mem_map_of_mem (f := (·.2)) hp
    rw [map_numberedRows] at hmem
    exact (List.mem_filter.1 hmem).1
  unfold ofProgramOn ofProgram
  generalize numberedRows text = rows at hrows
  induction rows with
  | nil => exact .inr rfl
  | cons p rows ih =>
    obtain ⟨row, line⟩ := p
    obtain ⟨hline, hrows⟩ := List.forall_mem_cons.1 hrows
    rw [List.mapM_cons, List.mapM_cons]
    dsimp only
    cases ofLineOn_cases (calls - 1) row line with
    | inl hdeep => exact .inl ⟨by rw [hdeep.1]; rfl, line, hline, by omega⟩
    | inr hrecord =>
      rw [hrecord]
      cases ofLine row line with
      | error fault => exact .inr rfl
      | ok record =>
        cases ih hrows with
        | inl hdeep => exact .inl ⟨by rw [hdeep.1]; rfl, hdeep.2⟩
        | inr hmore => exact .inr (by rw [hmore])

theorem storeOn_cases (calls : Nat) (text : List Char) :
    storeOn calls text = .error .depth ∧
        (∃ line ∈ Text.lines text, calls < 4 * nesting line + 13) ∨
      storeOn calls text = store text := by
  unfold storeOn store
  cases ofProgramOn_cases calls text with
  | inl hdeep => exact .inl ⟨by rw [hdeep.1]; rfl, hdeep.2⟩
  | inr hrecords => exact .inr (by rw [hrecords])

section Parentheses

variable {calls k : Nat}

theorem lines_parentheses (k : Nat) :
    Text.lines ("10 PRINT ".toList ++ List.replicate k '(') =
      ["10 PRINT ".toList ++ List.replicate k '('] := by
  have hnewline : '\n' ∉ "10 PRINT ".toList ++ List.replicate k '(' := by
    simp [List.mem_replicate]
  rw [Text.lines, Text.rows_of_not_mem hnewline, Text.dropReturns]

/-- Where there is room for fewer calls than the parentheses take, the program is not stored. -/
theorem storeOn_parentheses (h : calls < 3 * k + 15) :
    storeOn calls ("10 PRINT ".toList ++ List.replicate (k + 1) '(') = .error .depth := by
  have hless : calls - 1 - 1 - 1 < 3 * k + 12 := by omega
  have hline := lineOn_parentheses hless 0
  have hrows : numberedRows ("10 PRINT ".toList ++ List.replicate (k + 1) '(') =
      [(0, "10 PRINT ".toList ++ List.replicate (k + 1) '(')] := by
    rw [numberedRows, lines_parentheses]
    rfl
  have hrecord : ofLineOn (calls - 1) (0 : Nat)
      ("10 PRINT ".toList ++ List.replicate (k + 1) '(') = .error .depth := by
    rw [ofLineOn, bodyOn, padNumbersOn, hline]
    rfl
  rw [storeOn, ofProgramOn, hrows, List.mapM_cons]
  dsimp only
  rw [hrecord]
  rfl

end Parentheses

end IntegerBasic.Record
