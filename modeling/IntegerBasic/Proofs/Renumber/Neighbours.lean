import IntegerBasic.Proofs.Renumber.LineOrder

/-!
# New numbers and the lines around them

The guards are one more than the number above the selected rows and one less than the number below,
moved into the limits of a line number. Between numbers that leave room the new ones therefore stay
apart from both neighbours, in whatever order the lines are. Where the neighbour above has the
greatest number of all or one beyond it, or the neighbour below has the number zero, the guard is
moved onto the neighbour or past it, and the new number does not stay apart.
-/

namespace IntegerBasic.Renumber

open Grammar Document

/-- The number of the nearest numbered row above a row. -/
def NearestAbove (lines : List (List Char)) (row n : Int) : Prop :=
  ∃ (near : Nat) (s : List Char), near < row ∧ lines[near]? = some s ∧
    guardNumber s = .ok (some n) ∧ ∀ (between : Nat) (t : List Char), near < between →
      between < row → lines[between]? = some t → guardNumber t = .ok none

/-- The number of the nearest numbered row below a row. -/
def NearestBelow (lines : List (List Char)) (row n : Int) : Prop :=
  ∃ (near : Nat) (s : List Char), row < near ∧ lines[near]? = some s ∧
    guardNumber s = .ok (some n) ∧ ∀ (between : Nat) (t : List Char), row < between →
      between < near → lines[between]? = some t → guardNumber t = .ok none

/-- The first guard is that of a line before which no line has one. -/
theorem firstGuard_eq_some_iff {lines : List (List Char)} {n : Int} :
    firstGuard lines = .ok (some n) ↔ ∃ (i : Nat) (s : List Char), lines[i]? = some s ∧
      guardNumber s = .ok (some n) ∧
        ∀ (j : Nat) (t : List Char), j < i → lines[j]? = some t → guardNumber t = .ok none := by
  induction lines with
  | nil => simp [firstGuard, pure, Except.pure]
  | cons s lines ih =>
    rw [firstGuard]
    cases hs : guardNumber s with
    | error e =>
      constructor
      · intro h
        cases h
      · rintro ⟨i, t, ht, hn, hbefore⟩
        cases i with
        | zero =>
          cases ht
          rw [hs] at hn
          cases hn
        | succ i =>
          have := hbefore 0 s (Nat.succ_pos i) rfl
          rw [hs] at this
          cases this
    | ok found =>
      cases found with
      | some m =>
        constructor
        · intro h
          cases h
          exact ⟨0, s, rfl, hs, fun j t hj => absurd hj (Nat.not_lt_zero j)⟩
        · rintro ⟨i, t, ht, hn, hbefore⟩
          cases i with
          | zero =>
            cases ht
            rw [hs] at hn
            exact hn
          | succ i =>
            have := hbefore 0 s (Nat.succ_pos i) rfl
            rw [hs] at this
            cases this
      | none =>
        refine ih.trans ⟨?_, ?_⟩
        · rintro ⟨i, t, ht, hn, hbefore⟩
          refine ⟨i + 1, t, ht, hn, fun j u hj hu => ?_⟩
          cases j with
          | zero =>
            cases hu
            exact hs
          | succ j => exact hbefore j u (by omega) hu
        · rintro ⟨i, t, ht, hn, hbefore⟩
          cases i with
          | zero =>
            cases ht
            rw [hs] at hn
            cases hn
          | succ i => exact ⟨i, t, ht, hn, fun j u hj hu => hbefore (j + 1) u (by omega) hu⟩

theorem nearestAbove_iff {lines : List (List Char)} {row n : Int} :
    NearestAbove lines row n ↔ firstGuard (lines.take row.toNat).reverse = .ok (some n) := by
  -- a row counted down from the rows above
  have hplace : ∀ i < (lines.take row.toNat).length,
      (lines.take row.toNat).reverse[i]? = lines[(lines.take row.toNat).length - 1 - i]? := by
    intro i hi
    rw [List.getElem?_reverse hi, List.getElem?_take_of_lt]
    rw [List.length_take] at hi ⊢
    omega
  have hlength : ∀ (i : Nat) (s : List Char), i < row → lines[i]? = some s →
      i < (lines.take row.toNat).length := by
    intro i s hi hs
    have := (List.getElem?_eq_some_iff.1 hs).1
    rw [List.length_take]
    omega
  rw [firstGuard_eq_some_iff]
  constructor
  · rintro ⟨near, s, hrow, hs, hn, hbetween⟩
    have hlt := hlength near s hrow hs
    refine ⟨(lines.take row.toNat).length - 1 - near, s, ?_, hn, fun j t hj ht => ?_⟩
    · rw [hplace _ (by omega), ← hs]
      congr 1
      omega
    · rw [hplace j (by omega)] at ht
      refine hbetween _ t (by omega) ?_ ht
      rw [List.length_take] at hj ⊢
      omega
  · rintro ⟨i, s, hs, hn, hbefore⟩
    have hi : i < (lines.take row.toNat).length := by
      have := (List.getElem?_eq_some_iff.1 hs).1
      rwa [List.length_reverse] at this
    rw [hplace i hi] at hs
    refine ⟨_, s, ?_, hs, hn, fun between t hlow hhigh ht => ?_⟩
    · rw [List.length_take] at hi ⊢
      omega
    · have hlt := hlength between t hhigh ht
      refine hbefore ((lines.take row.toNat).length - 1 - between) t (by omega) ?_
      rw [hplace _ (by omega), ← ht]
      congr 1
      omega

theorem nearestBelow_iff {lines : List (List Char)} {row n : Int} (hrow : 0 ≤ row + 1) :
    NearestBelow lines row n ↔ firstGuard (lines.drop (row + 1).toNat) = .ok (some n) := by
  rw [firstGuard_eq_some_iff]
  constructor
  · rintro ⟨near, s, hlt, hs, hn, hbetween⟩
    refine ⟨near - (row + 1).toNat, s, ?_, hn, fun j t hj ht => ?_⟩
    · rw [List.getElem?_drop, ← hs]
      congr 1
      omega
    · rw [List.getElem?_drop] at ht
      exact hbetween _ t (by omega) (by omega) ht
  · rintro ⟨i, s, hs, hn, hbefore⟩
    rw [List.getElem?_drop] at hs
    refine ⟨_, s, by omega, hs, hn, fun between t hlow hhigh ht => ?_⟩
    refine hbefore (between - (row + 1).toNat) t (by omega) ?_
    rw [List.getElem?_drop, ← ht]
    congr 1
    omega

/-- There is an edit exactly if a line is selected. -/
theorem ne_nil_of_editsOf {text : List Char} {assigned : List (Reference × Int)}
    {updateReferences : Bool} {es : List Edit} (h : editsOf text assigned updateReferences = .ok es)
    (hne : es ≠ []) : assigned ≠ [] := by
  rintro rfl
  unfold editsOf at h
  cases updateReferences <;> cases h <;> exact hne rfl

/-- After an edit of the selected rows their numbers are a count from the first number on that ends
within the guards. -/
theorem exists_counted {text : List Char} {start step : Json} {updateReferences : Bool}
    {selection : Selection} {es : List Edit}
    (h : edits text start step updateReferences (some selection) = .ok es) (hne : es ≠ []) :
    ∃ first last lower upper new news, applyEdits? text es = some new ∧
      primaries (program new) = .ok news ∧ 0 ≤ selection.last ∧
      guards (Text.lines text) (some selection) = .ok (lower, upper) ∧
      lower ≤ first ∧ last ≤ upper ∧
      (∃ r ∈ select (some selection) news, (r.number : Int) = first) ∧
      ∀ r ∈ select (some selection) news, first ≤ r.number ∧ (r.number : Int) ≤ last := by
  obtain ⟨first, increment, olds, assigned, new, news, hparameters, holds, rfl, hedits, hfit, -,
    happly, -, hnews, hrows, hnumbers⟩ := exists_recounted h
  obtain ⟨hfirst, hincrement⟩ := parameters_ok hparameters
  have hselected : olds.filter (isSelected (some selection)) ≠ [] := by
    intro hempty
    rw [hempty] at hedits
    exact ne_nil_of_editsOf hedits hne rfl
  obtain ⟨lower, upper, hguards, hlower, hupper⟩ := hfit hselected
  have hlength := List.length_pos_iff.2 hselected
  obtain ⟨hcount, -⟩ := filter_of_recount hrows hnumbers
  have hread : Read (primaryLeaves (Text.lines text) 0) olds :=
    read_of_mapM (by rw [← primaries_eq, holds])
  simp only [select_eq]
  generalize hlen : (olds.filter (isSelected (some selection))).length = len at *
  refine ⟨first, first + increment * len - increment, lower, upper, new, news, happly, hnews, ?_,
    hguards, hlower, by omega, ?_, fun r hr => ?_⟩
  · -- a selected row is not before the first one
    obtain ⟨r, hr⟩ := List.exists_mem_of_ne_nil _ hselected
    obtain ⟨hmem, hsel⟩ := List.mem_filter.1 hr
    have := le_row_of_read hread r hmem
    simp only [isSelected, Option.all_some, Selection.contains, Bool.and_eq_true,
      decide_eq_true_eq] at hsel
    omega
  · have hmem : first ∈ (news.filter (isSelected (some selection))).map
        fun r => (r.number : Int) := by
      rw [hcount, List.mem_map]
      exact ⟨0, List.mem_range.2 hlength, by simp⟩
    exact List.mem_map.1 hmem
  · have hmem : (r.number : Int) ∈ (List.range len).map
        fun k : Nat => first + increment * (k : Int) := by
      rw [← hcount]
      exact List.mem_map_of_mem hr
    obtain ⟨k, hk, heq⟩ := List.mem_map.1 hmem
    have hlow : 0 ≤ increment * (k : Int) := Int.mul_nonneg (by omega) (by omega)
    have hhigh : increment * ((k : Int) + 1) ≤ increment * len :=
      Int.mul_le_mul_of_nonneg_left (by have := List.mem_range.1 hk; omega) (by omega)
    rw [Int.mul_add, Int.mul_one] at hhigh
    omega

/-- The new numbers of the selected rows stay apart from the numbers of the lines around them,
exactly if the number above is below the greatest number of a line and the number below is
positive. -/
theorem between_neighbours_iff {text : List Char} {start step : Json} {updateReferences : Bool}
    {selection : Selection} {es : List Edit}
    (h : edits text start step updateReferences (some selection) = .ok es) (hne : es ≠ []) :
    ∃ new news, applyEdits? text es = some new ∧ primaries (program new) = .ok news ∧
      select (some selection) news ≠ [] ∧
      ((∀ r ∈ select (some selection) news, ∀ n,
          NearestAbove (Text.lines text) selection.first n → n < r.number) ↔
        ∀ n, NearestAbove (Text.lines text) selection.first n → n < lineNumberLimit) ∧
      ((∀ r ∈ select (some selection) news, ∀ n,
          NearestBelow (Text.lines text) selection.last n → r.number < n) ↔
        ∀ n, NearestBelow (Text.lines text) selection.last n → 0 < n) := by
  obtain ⟨first, last, lower, upper, new, news, happly, hnews, hrow, hguards, hlower, hupper,
    ⟨r, hr, hfirst⟩, hbetween⟩ := exists_counted h hne
  obtain ⟨above, behind, below, habove, hbehind, hbelow, rfl, rfl⟩ := guards_some hguards
  rw [Index.from?, if_pos (by omega)] at hbehind
  cases hbehind
  have hbehindRow : 0 ≤ selection.last + 1 := by omega
  refine ⟨new, news, happly, hnews, List.ne_nil_of_mem hr, ?_, ?_⟩
  · simp only [nearestAbove_iff, habove, Except.ok.injEq]
    constructor
    · rintro hless n rfl
      have := hless r hr n rfl
      have := hbetween r hr
      have := clampNumber_le (below.elim lineNumberLimit (· - 1))
      rw [lineNumberLimit]
      omega
    · rintro hlimit r' hr' n rfl
      have := hlimit n rfl
      have := hbetween r' hr'
      rw [Option.elim, clampNumber] at hlower
      omega
  · simp only [nearestBelow_iff hbehindRow, hbelow, Except.ok.injEq]
    constructor
    · rintro hless n rfl
      have := hless r hr n rfl
      omega
    · rintro hpositive r' hr' n rfl
      have := hpositive n rfl
      have := hbetween r' hr'
      rw [Option.elim, clampNumber] at hupper
      omega

/-- The line above has the greatest number of all, and the selected line is given the same one. -/
theorem between_neighbours_greatest :
    ∃ new news, applyEdits? "32767 END\n10 END".toList [⟨⟨⟨1, 0⟩, ⟨1, 3⟩⟩, "32767 ".toList⟩] =
        some new ∧ primaries (program new) = .ok news ∧
      select (some ⟨1, 1⟩) news ≠ [] ∧
      ((∀ r ∈ select (some ⟨1, 1⟩) news, ∀ n,
          NearestAbove (Text.lines "32767 END\n10 END".toList) 1 n → n < r.number) ↔
        ∀ n, NearestAbove (Text.lines "32767 END\n10 END".toList) 1 n → n < lineNumberLimit) ∧
      ((∀ r ∈ select (some ⟨1, 1⟩) news, ∀ n,
          NearestBelow (Text.lines "32767 END\n10 END".toList) 1 n → r.number < n) ↔
        ∀ n, NearestBelow (Text.lines "32767 END\n10 END".toList) 1 n → 0 < n) :=
  @between_neighbours_iff "32767 END\n10 END".toList (.int 32767) (.int 1) false ⟨1, 1⟩ _
    (by decide +kernel) (by decide)

end IntegerBasic.Renumber
