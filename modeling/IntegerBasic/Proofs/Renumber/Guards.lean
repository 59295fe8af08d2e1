import IntegerBasic.Proofs.Renumber.Changes

/-!
# Guards

The guards are looked for by a reader of their own, upwards and downwards from the selected rows.
Where it finds numbers only in lines that the grammar numbers, too, what it finds above is the
greatest number of the lines before the selection, and what it finds below the least number of the
lines behind it.
-/

namespace IntegerBasic.Renumber

open Grammar

/-- The reader of the guards finds a number only in rows to which the grammar gives one. -/
def GuardsNumbered (text : List Char) : Prop :=
  ∀ (row : Nat) (s : List Char), (Text.lines text)[row]? = some s →
    (Lexeme.integer (Text.trimLeft s)).isSome = true →
      ∃ l ∈ (program text).leaves, l.kind = .lineNumber ∧ l.span.start.row = row

instance (text : List Char) : Decidable (GuardsNumbered text) :=
  decidable_of_iff (∀ p ∈ (Text.lines text).zipIdx,
      (Lexeme.integer (Text.trimLeft p.1)).isSome = true →
        ∃ l ∈ (program text).leaves, l.kind = .lineNumber ∧ l.span.start.row = p.2)
    ⟨fun h row s hs => h (s, row) (List.mem_zipIdx_iff_getElem?.2 hs),
      fun h p hp => h p.2 p.1 (List.mem_zipIdx_iff_getElem?.1 hp)⟩

theorem mem_primaryLeaves {lines : List (List Char)} {l : Leaf} :
    l ∈ primaryLeaves lines 0 ↔
      ∃ (row : Nat) (s : _), lines[row]? = some s ∧ primaryLeaf? row s = some l := by
  rw [primaryLeaves, List.mem_filterMap]
  constructor
  · rintro ⟨⟨s, row⟩, hmem, hl⟩
    exact ⟨row, s, List.mem_zipIdx_iff_getElem?.1 hmem, hl⟩
  · rintro ⟨row, s, hs, hl⟩
    exact ⟨(s, row), List.mem_zipIdx_iff_getElem?.2 hs, hl⟩

theorem lineNumber_of_guard {text : List Char} (hguards : GuardsNumbered text) {row : Nat}
    {s : List Char} (hs : (Text.lines text)[row]? = some s)
    (h : (Lexeme.integer (Text.trimLeft s)).isSome = true) :
    ∃ number rest, Lexeme.lineNumber s = some (number, rest) := by
  obtain ⟨l, hl, hkind, hrow⟩ := hguards row s hs h
  have hleaf : l ∈ (program text).leaves.filter (·.kind == .lineNumber) :=
    List.mem_filter.2 ⟨hl, by simp [hkind]⟩
  rw [filter_program_leaves] at hleaf
  obtain ⟨row', s', hs', hl'⟩ := mem_primaryLeaves.1 hleaf
  have hsame : row' = row := by
    have := (inRow_primaryLeaf? hl').1
    omega
  subst hsame
  obtain ⟨⟨number, rest⟩, hnumber, -⟩ := Option.map_eq_some_iff.1 hl'
  rw [hs] at hs'
  cases hs'
  exact ⟨number, rest, hnumber⟩

theorem exists_of_mem_read {leaves : List Leaf} {refs : List Reference} (h : Read leaves refs) :
    (∀ r ∈ refs, ∃ l ∈ leaves, Reference.ofLeaf l = .ok r) ∧
      ∀ l ∈ leaves, ∃ r ∈ refs, Reference.ofLeaf l = .ok r := by
  induction h with
  | nil => simp
  | cons hl _ ih =>
    constructor
    · intro r hr
      rcases List.mem_cons.1 hr with rfl | hr
      · exact ⟨_, List.mem_cons_self, hl⟩
      · obtain ⟨l, hmem, hl⟩ := ih.1 r hr
        exact ⟨l, List.mem_cons_of_mem _ hmem, hl⟩
    · intro l hmem
      rcases List.mem_cons.1 hmem with rfl | hmem
      · exact ⟨_, List.mem_cons_self, hl⟩
      · obtain ⟨r, hr, hl⟩ := ih.2 l hmem
        exact ⟨r, List.mem_cons_of_mem _ hr, hl⟩

/-- In a numbered line both readers find the same number. -/
theorem guardNumber_eq {row : Nat} {s number rest : List Char} {r : Reference}
    (h : Lexeme.lineNumber s = some (number, rest))
    (hr : Reference.ofLeaf ⟨.lineNumber, number, ⟨⟨row, 0⟩, ⟨row, number.length⟩⟩⟩ = .ok r) :
    guardNumber s = .ok (some (r.number : Int)) := by
  obtain ⟨gaps, text, rfl, hgaps, htext, hrest, rfl⟩ := Lexeme.lineNumber_some h
  have hdigits : (gaps ++ text).filter Char.isDigit = text.filter Char.isDigit := by
    rw [List.filter_append, List.filter_eq_nil_iff.2, List.nil_append]
    intro c hc
    have hgap := hgaps c hc
    simp only [Text.isGap, Bool.or_eq_true, beq_iff_eq] at hgap
    rcases hgap with rfl | rfl <;> decide
  have hread : Numeral.readToken text = .ok r.number := by
    have hsame : Numeral.readToken text = Numeral.readToken (gaps ++ text) := by
      unfold Numeral.readToken Numeral.digitsValue
      rw [hdigits]
    rw [hsame]
    unfold Reference.ofLeaf at hr
    cases hnumber : Numeral.readToken (gaps ++ text) with
    | error e =>
      rw [hnumber] at hr
      cases hr
    | ok n =>
      rw [hnumber] at hr
      cases hr
      rfl
  rw [guardNumber, List.append_assoc, trimLeft_append hgaps htext,
    Lexeme.integer_append htext hrest]
  dsimp only
  rw [hread]
  rfl

theorem except_bind_ok {ε α β : Type} {x : Except ε α} {f : α → Except ε β} {b : β}
    (h : x >>= f = .ok b) : ∃ a, x = .ok a ∧ f a = .ok b := by
  cases x with
  | error e => cases h
  | ok a => exact ⟨a, rfl, h⟩

theorem mapError_ok {ε ε' α : Type} {f : ε → ε'} {x : Except ε α} {a : α}
    (h : x.mapError f = .ok a) : x = .ok a := by
  cases x with
  | error e => cases h
  | ok a =>
    cases h
    rfl

/-- The guards of a selection come from the lines above it and from those below. -/
theorem guards_some {lines : List (List Char)} {selection : Selection} {lower upper : Int}
    (h : guards lines (some selection) = .ok (lower, upper)) :
    ∃ above behind below, firstGuard (lines.take selection.first.toNat).reverse = .ok above ∧
      Index.from? lines (selection.last + 1) = some behind ∧ firstGuard behind = .ok below ∧
      lower = clampNumber (above.elim 0 (· + 1)) ∧
      upper = clampNumber (below.elim lineNumberLimit (· - 1)) := by
  unfold guards at h
  obtain ⟨above, habove, h⟩ := except_bind_ok h
  cases hbehind : Index.from? lines (selection.last + 1) with
  | none =>
    rw [hbehind] at h
    cases h
  | some behind =>
    rw [hbehind] at h
    obtain ⟨below, hbelow, h⟩ := except_bind_ok (x := (firstGuard behind).mapError Fault.numeral) h
    cases h
    exact ⟨above, behind, below, mapError_ok habove, rfl, mapError_ok hbelow, rfl, rfl⟩

theorem clampNumber_of_mem {n : Int} (hlow : 0 ≤ n) (hhigh : n ≤ 32767) : clampNumber n = n := by
  rw [clampNumber, lineNumberLimit]
  omega

theorem clampNumber_le (n : Int) : clampNumber n ≤ 32767 := by
  rw [clampNumber, lineNumberLimit]
  omega

section

variable {text : List Char} {olds : List Reference}

theorem exists_row_of_mem (hread : Read (primaryLeaves (Text.lines text) 0) olds) {r : Reference}
    (hr : r ∈ olds) :
    ∃ (row : Nat) (s : _), (Text.lines text)[row]? = some s ∧ r.span.start.row = row ∧
      guardNumber s = .ok (some (r.number : Int)) := by
  obtain ⟨l, hl, hok⟩ := (exists_of_mem_read hread).1 r hr
  obtain ⟨row, s, hs, hleaf⟩ := mem_primaryLeaves.1 hl
  obtain ⟨⟨number, rest⟩, hnumber, rfl⟩ := Option.map_eq_some_iff.1 hleaf
  exact ⟨row, s, hs, by rw [(ofLeaf_ok hok).2.1], guardNumber_eq hnumber hok⟩

theorem exists_mem_of_guardNumber (hread : Read (primaryLeaves (Text.lines text) 0) olds)
    (hguards : GuardsNumbered text) {row : Nat} {s : List Char}
    (hs : (Text.lines text)[row]? = some s) {n : Int} (h : guardNumber s = .ok (some n)) :
    ∃ r ∈ olds, n = r.number ∧ r.span.start.row = row := by
  have hinteger : (Lexeme.integer (Text.trimLeft s)).isSome = true := by
    unfold guardNumber at h
    cases hnumber : Lexeme.integer (Text.trimLeft s) with
    | none =>
      rw [hnumber] at h
      cases h
    | some pair => rfl
  obtain ⟨number, rest, hnumber⟩ := lineNumber_of_guard hguards hs hinteger
  obtain ⟨r, hr, hok⟩ := (exists_of_mem_read hread).2 _
    (mem_primaryLeaves.2 ⟨row, s, hs, primaryLeaf?_eq_some row hnumber⟩)
  rw [guardNumber_eq hnumber hok] at h
  cases h
  exact ⟨r, hr, rfl, by rw [(ofLeaf_ok hok).2.1]⟩

/-- If a line has a guard, the first guard is that of this line or of one before it. -/
theorem firstGuard_of_getElem? {lines : List (List Char)} {guard : Option Int}
    (h : firstGuard lines = .ok guard) {i : Nat} {s : List Char} (hs : lines[i]? = some s)
    {n : Int} (hn : guardNumber s = .ok (some n)) :
    ∃ j s' m, j ≤ i ∧ lines[j]? = some s' ∧ guardNumber s' = .ok (some m) ∧ guard = some m := by
  induction lines generalizing i with
  | nil => cases hs
  | cons s' lines ih =>
    rw [firstGuard] at h
    cases hs' : guardNumber s' with
    | error e =>
      rw [hs'] at h
      cases h
    | ok found =>
      rw [hs'] at h
      cases found with
      | some m =>
        cases h
        exact ⟨0, s', m, Nat.zero_le _, rfl, hs', rfl⟩
      | none =>
        cases i with
        | zero =>
          cases hs
          rw [hs'] at hn
          cases hn
        | succ i =>
          obtain ⟨j, t, m, hj, ht, hm, hguard⟩ := ih h hs
          exact ⟨j + 1, t, m, by omega, ht, hm, hguard⟩

/-- The guard above some rows is the number of the last numbered line above them. -/
theorem exists_guard_above (hread : Read (primaryLeaves (Text.lines text) 0) olds)
    (hguards : GuardsNumbered text) {k : Nat} {guard : Option Int}
    (h : firstGuard ((Text.lines text).take k).reverse = .ok guard) {r : Reference} (hr : r ∈ olds)
    (hrow : r.span.start.row < k) :
    ∃ r' ∈ olds, guard = some (r'.number : Int) ∧ r'.span.start.row < k ∧
      r.span.start.row ≤ r'.span.start.row := by
  obtain ⟨row, s, hs, heq, hn⟩ := exists_row_of_mem hread hr
  have hlt : row < ((Text.lines text).take k).length := by
    have := (List.getElem?_eq_some_iff.1 hs).1
    rw [List.length_take]
    omega
  have hplace : ((Text.lines text).take k).reverse[((Text.lines text).take k).length - 1 - row]? =
      some s := by
    rw [List.getElem?_reverse (by omega), List.getElem?_take_of_lt (by omega), ← hs]
    congr 1
    omega
  obtain ⟨j, s', m, hj, hs', hm, rfl⟩ := firstGuard_of_getElem? h hplace hn
  rw [List.getElem?_reverse (by omega), List.getElem?_take_of_lt (by
    rw [List.length_take] at hlt ⊢; omega)] at hs'
  obtain ⟨r', hr', rfl, hrow'⟩ := exists_mem_of_guardNumber hread hguards hs' hm
  rw [List.length_take] at hlt hj hrow'
  exact ⟨r', hr', rfl, by omega, by omega⟩

/-- The guard below some rows is the number of the first numbered line below them. -/
theorem exists_guard_below (hread : Read (primaryLeaves (Text.lines text) 0) olds)
    (hguards : GuardsNumbered text) {k : Nat} {guard : Option Int}
    (h : firstGuard ((Text.lines text).drop k) = .ok guard) {r : Reference} (hr : r ∈ olds)
    (hrow : k ≤ r.span.start.row) :
    ∃ r' ∈ olds, guard = some (r'.number : Int) ∧ k ≤ r'.span.start.row ∧
      r'.span.start.row ≤ r.span.start.row := by
  obtain ⟨row, s, hs, heq, hn⟩ := exists_row_of_mem hread hr
  have hplace : ((Text.lines text).drop k)[row - k]? = some s := by
    rw [List.getElem?_drop, ← hs]
    congr 1
    omega
  obtain ⟨j, s', m, hj, hs', hm, rfl⟩ := firstGuard_of_getElem? h hplace hn
  rw [List.getElem?_drop] at hs'
  obtain ⟨r', hr', rfl, hrow'⟩ := exists_mem_of_guardNumber hread hguards hs' hm
  exact ⟨r', hr', rfl, by omega, by omega⟩

end

end IntegerBasic.Renumber
