import IntegerBasic.Proofs.Renumber.Guards
import IntegerBasic.Proofs.Renumber.Numbering

/-!
# Order of the lines

Renumbering keeps the lines in order. The selected lines are counted from the first number on, and
the guards keep this count between the numbers of the lines before the selection and of those
behind it.
-/

namespace IntegerBasic.Renumber

open Grammar Document

def recount (selected : Reference → Bool) (step : Int) (next : Int) : List Reference → List Int
  | [] => []
  | r :: refs =>
    if selected r then next :: recount selected step (next + step) refs
    else (r.number : Int) :: recount selected step next refs

theorem assign_cons (first step : Int) (r : Reference) (refs : List Reference) :
    assign first step (r :: refs) = (r, first) :: assign (first + step) step refs := by
  rw [assign, List.zipIdx_cons, List.map_cons, assign, List.zipIdx_succ, List.map_map]
  congr 1
  · simp
  · apply List.map_congr_left
    intro p _
    simp only [Function.comp_apply, Prod.mk.injEq, true_and]
    push_cast
    rw [Int.mul_add, Int.mul_one]
    omega

theorem map_fst_assign (first step : Int) (refs : List Reference) :
    (assign first step refs).map (·.1) = refs := by
  induction refs generalizing first with
  | nil => rfl
  | cons r refs ih => rw [assign_cons, List.map_cons, ih]

def Descending (refs : List Reference) : Prop :=
  refs.Pairwise fun r r' => r.span.start.row < r'.span.start.row

theorem newNumber?_cons_self {r : Reference} {n : Int} {assigned : List (Reference × Int)}
    {row : Nat} (h : r.span.start.row = row) : newNumber? ((r, n) :: assigned) row = some n := by
  rw [newNumber?, List.find?_cons_of_pos (by simp [h])]
  rfl

theorem newNumber?_cons_ne {r : Reference} {n : Int} {assigned : List (Reference × Int)}
    {row : Nat} (h : r.span.start.row ≠ row) :
    newNumber? ((r, n) :: assigned) row = newNumber? assigned row := by
  rw [newNumber?, List.find?_cons_of_neg (by simpa using h)]
  rfl

/-- The assigned numbers, and the old ones where none is assigned, are the recounted numbers. -/
theorem map_newNumber? (selected : Reference → Bool) (step next : Int) {refs : List Reference}
    (hrows : Descending refs) (hnonneg : ∀ r ∈ refs, 0 ≤ r.span.start.row) :
    (refs.map fun r => (newNumber? (assign next step (refs.filter selected))
      r.span.start.row.toNat).getD r.number) = recount selected step next refs := by
  induction refs generalizing next with
  | nil => rfl
  | cons r refs ih =>
    obtain ⟨hbelow, hrows⟩ := List.pairwise_cons.1 hrows
    have hr : r.span.start.row = r.span.start.row.toNat := by
      have := hnonneg r List.mem_cons_self
      omega
    have hmore := fun r' hr' => hnonneg r' (List.mem_cons_of_mem r hr')
    rw [List.map_cons, recount]
    cases hsel : selected r with
    | true =>
      rw [List.filter_cons_of_pos hsel, assign_cons, newNumber?_cons_self hr, if_pos rfl,
        ← ih (next + step) hrows hmore]
      refine congrArg (List.cons _) (List.map_congr_left fun r' hr' => ?_)
      have hlt := hbelow r' hr'
      have := hmore r' hr'
      rw [newNumber?_cons_ne (by omega)]
    | false =>
      have hnone : newNumber? (assign next step (refs.filter selected))
          r.span.start.row.toNat = none := by
        apply newNumber?_eq_none
        intro p hp
        have hmem : p.1 ∈ (assign next step (refs.filter selected)).map (·.1) :=
          List.mem_map_of_mem hp
        rw [map_fst_assign] at hmem
        have := hbelow p.1 (List.mem_filter.1 hmem).1
        omega
      rw [List.filter_cons_of_neg (by simp [hsel]), hnone, if_neg (by simp), ← ih next hrows hmore]
      rfl

/-- A recounted number is one of the count, or an old number that is not selected. -/
theorem mem_recount {selected : Reference → Bool} {step next x : Int} (hstep : 0 < step)
    {refs : List Reference} (hx : x ∈ recount selected step next refs) :
    (next ≤ x ∧ x + step ≤ next + step * (refs.filter selected).length ∧
        ∃ r ∈ refs, selected r = true) ∨
      ∃ r ∈ refs, selected r = false ∧ x = r.number := by
  induction refs generalizing next with
  | nil => cases hx
  | cons r refs ih =>
    rw [recount] at hx
    cases hsel : selected r with
    | true =>
      rw [hsel, if_pos rfl] at hx
      have hlength : ((r :: refs).filter selected).length = (refs.filter selected).length + 1 := by
        rw [List.filter_cons_of_pos hsel, List.length_cons]
      have hmul : step * ((refs.filter selected).length + 1 : Nat) =
          step * (refs.filter selected).length + step := by
        push_cast
        rw [Int.mul_add, Int.mul_one]
      have hpos : 0 ≤ step * (refs.filter selected).length :=
        Int.mul_nonneg (by omega) (Int.natCast_nonneg _)
      rw [hlength, hmul]
      rcases List.mem_cons.1 hx with rfl | hx
      · exact .inl ⟨by omega, by omega, r, List.mem_cons_self, hsel⟩
      · rcases ih hx with ⟨hlow, hhigh, r', hr', hsel'⟩ | ⟨r', hr', hsel', rfl⟩
        · exact .inl ⟨by omega, by omega, r', List.mem_cons_of_mem _ hr', hsel'⟩
        · exact .inr ⟨r', List.mem_cons_of_mem _ hr', hsel', rfl⟩
    | false =>
      rw [hsel, if_neg (by simp)] at hx
      rw [List.filter_cons_of_neg (by simp [hsel])]
      rcases List.mem_cons.1 hx with rfl | hx
      · exact .inr ⟨r, List.mem_cons_self, hsel, rfl⟩
      · rcases ih hx with ⟨hlow, hhigh, r', hr', hsel'⟩ | ⟨r', hr', hsel', rfl⟩
        · exact .inl ⟨hlow, hhigh, r', List.mem_cons_of_mem _ hr', hsel'⟩
        · exact .inr ⟨r', List.mem_cons_of_mem _ hr', hsel', rfl⟩

/-- Numbers that increase, with all numbers before a selected one below the first new number, and
all behind a selected one above the last. -/
def Guarded (selected : Reference → Bool) (first last : Int) (refs : List Reference) : Prop :=
  refs.Pairwise fun r r' => r.number < r'.number ∧
    (selected r = false → selected r' = true → (r.number : Int) < first) ∧
    (selected r = true → selected r' = false → last < r'.number)

/-- Between the guards counting keeps the order. -/
theorem pairwise_recount {selected : Reference → Bool} {step next first last : Int}
    (hstep : 0 < step) {refs : List Reference} (h : Guarded selected first last refs)
    (hfirst : first ≤ next) (hlast : next + step * (refs.filter selected).length ≤ last + step) :
    (recount selected step next refs).Pairwise (· < ·) := by
  induction refs generalizing next with
  | nil => exact .nil
  | cons r refs ih =>
    obtain ⟨hr, hrefs⟩ := List.pairwise_cons.1 h
    rw [recount]
    cases hsel : selected r with
    | true =>
      have hlength : step * ((r :: refs).filter selected).length =
          step * (refs.filter selected).length + step := by
        rw [List.filter_cons_of_pos hsel, List.length_cons]
        push_cast
        rw [Int.mul_add, Int.mul_one]
      have hpos : 0 ≤ step * (refs.filter selected).length :=
        Int.mul_nonneg (by omega) (Int.natCast_nonneg _)
      rw [if_pos rfl]
      refine .cons (fun x hx => ?_) (ih hrefs (by omega) (by omega))
      rcases mem_recount hstep hx with ⟨hlow, -⟩ | ⟨r', hr', hsel', rfl⟩
      · omega
      · have := (hr r' hr').2.2 hsel hsel'
        omega
    | false =>
      rw [List.filter_cons_of_neg (by simp [hsel])] at hlast
      rw [if_neg (by simp)]
      refine .cons (fun x hx => ?_) (ih hrefs hfirst hlast)
      rcases mem_recount hstep hx with ⟨hlow, -, r', hr', hsel'⟩ | ⟨r', hr', hsel', rfl⟩
      · have := (hr r' hr').2.1 hsel hsel'
        omega
      · have := (hr r' hr').1
        omega

/-- A reference in a selected row. Without a selection all rows are. -/
def isSelected (selection : Option Selection) (r : Reference) : Bool :=
  selection.all (·.contains r.span.start.row)

theorem select_eq (selection : Option Selection) (refs : List Reference) :
    select selection refs = refs.filter (isSelected selection) := by
  cases selection with
  | none => exact (List.filter_eq_self.2 fun _ _ => rfl).symm
  | some selection => rfl

theorem descending_of_read {lines : List (List Char)} {first : Nat} {refs : List Reference}
    (h : Read (primaryLeaves lines first) refs) : Descending refs := by
  induction lines generalizing first refs with
  | nil =>
    cases h
    exact .nil
  | cons s lines ih =>
    rw [primaryLeaves_cons] at h
    cases hleaf : primaryLeaf? first s with
    | none =>
      rw [hleaf] at h
      exact ih h
    | some l =>
      rw [hleaf] at h
      cases h with
      | @cons _ r _ refs hl hmore =>
        refine .cons (fun r' hr' => ?_) (ih hmore)
        have hlater := le_row_of_read hmore r' hr'
        rw [(ofLeaf_ok hl).2.1, (inRow_primaryLeaf? hleaf).1]
        omega

/-- Numbers that increase from line to line. -/
def Increasing (refs : List Reference) : Prop := refs.Pairwise fun r r' => r.number < r'.number

/-- Of two references one is further down and has the greater number. -/
theorem trichotomy_of_mem {refs : List Reference} (hrows : Descending refs)
    (hnumbers : Increasing refs) {r r' : Reference} (hr : r ∈ refs) (hr' : r' ∈ refs) :
    (r.span.start.row < r'.span.start.row ∧ r.number < r'.number) ∨ r = r' ∨
      (r'.span.start.row < r.span.start.row ∧ r'.number < r.number) := by
  obtain ⟨i, hi, rfl⟩ := List.mem_iff_getElem.1 hr
  obtain ⟨j, hj, rfl⟩ := List.mem_iff_getElem.1 hr'
  have hboth := List.pairwise_iff_getElem.1 (hrows.and hnumbers)
  rcases Nat.lt_trichotomy i j with hlt | rfl | hgt
  · exact .inl (hboth i j hi hj hlt)
  · exact .inr (.inl rfl)
  · exact .inr (.inr (hboth j i hj hi hgt))

theorem number_lt_of_row_lt {refs : List Reference} (hrows : Descending refs)
    (hnumbers : Increasing refs) {r r' : Reference} (hr : r ∈ refs) (hr' : r' ∈ refs)
    (h : r.span.start.row < r'.span.start.row) : r.number < r'.number := by
  rcases trichotomy_of_mem hrows hnumbers hr hr' with hlt | rfl | hgt <;> omega

theorem number_le_of_row_le {refs : List Reference} (hrows : Descending refs)
    (hnumbers : Increasing refs) {r r' : Reference} (hr : r ∈ refs) (hr' : r' ∈ refs)
    (h : r.span.start.row ≤ r'.span.start.row) : r.number ≤ r'.number := by
  rcases trichotomy_of_mem hrows hnumbers hr hr' with hlt | rfl | hgt <;> omega

/-- Between the guards there is room for the new numbers. -/
theorem guarded_of_guards {text : List Char} {olds : List Reference}
    (hread : Read (primaryLeaves (Text.lines text) 0) olds) (hguards : GuardsNumbered text)
    (hnumbers : Increasing olds) (hlimit : ∀ r ∈ olds, r.number ≤ 32767)
    {selection : Option Selection} {lower upper first last : Int}
    (h : guards (Text.lines text) selection = .ok (lower, upper)) (hfirst : lower ≤ first)
    (hlast : last ≤ upper) : Guarded (isSelected selection) first last olds := by
  have hrows := descending_of_read hread
  refine List.Pairwise.imp_of_mem ?_ (hrows.and hnumbers)
  rintro r r' hr hr' ⟨hrow, hnumber⟩
  refine ⟨hnumber, ?_⟩
  cases selection with
  | none => exact ⟨fun hsel => Bool.noConfusion hsel, fun _ hsel => Bool.noConfusion hsel⟩
  | some selection =>
    have hnonneg := le_row_of_read hread r hr
    obtain ⟨above, behind, below, habove, hbehind, hbelow, rfl, rfl⟩ := guards_some h
    simp only [isSelected, Option.all_some, Selection.contains, Bool.and_eq_true,
      Bool.and_eq_false_iff, decide_eq_true_eq, decide_eq_false_iff_not]
    constructor
    · -- the guard above is at least the number of `r` and below that of `r'`
      intro hout hin
      obtain ⟨r₁, hr₁, rfl, hrow₁, hle₁⟩ :=
        exists_guard_above hread hguards habove hr (by omega)
      have hle := number_le_of_row_le hrows hnumbers hr hr₁ hle₁
      have hlt := number_lt_of_row_lt hrows hnumbers hr₁ hr' (by omega)
      have := hlimit r' hr'
      rw [Option.elim, clampNumber_of_mem (by omega) (by omega)] at hfirst
      omega
    · -- the guard below is at most the number of `r'` and above that of `r`
      intro hin hout
      rw [Index.from?, if_pos (by omega)] at hbehind
      cases hbehind
      obtain ⟨r₁, hr₁, rfl, hrow₁, hle₁⟩ :=
        exists_guard_below hread hguards hbelow hr' (by omega)
      have hle := number_le_of_row_le hrows hnumbers hr₁ hr' hle₁
      have hlt := number_lt_of_row_lt hrows hnumbers hr hr₁ (by omega)
      have := hlimit r' hr'
      rw [Option.elim, clampNumber_of_mem (by omega) (by omega)] at hlast
      omega

theorem parameters_ok {start step : Json} {first increment : Int}
    (h : parameters start step = .ok (first, increment)) : 0 ≤ first ∧ 0 < increment := by
  unfold parameters at h
  obtain ⟨n, -, h⟩ := except_bind_ok h
  obtain ⟨m, -, h⟩ := except_bind_ok h
  split at h
  · cases h
  · cases h
    omega

/-- What is assigned, if the new numbers fit. -/
theorem assignments_ok {text : List Char} {start step : Json} {selection : Option Selection}
    {assigned : List (Reference × Int)}
    (h : assignments text start step selection = .ok assigned) :
    ∃ first increment olds, parameters start step = .ok (first, increment) ∧
      primaries (program text) = .ok olds ∧
      assigned = assign first increment (olds.filter (isSelected selection)) ∧
      (olds.filter (isSelected selection) ≠ [] → ∃ lower upper,
        guards (Text.lines text) selection = .ok (lower, upper) ∧ lower ≤ first ∧
        first + increment * (olds.filter (isSelected selection)).length ≤ upper + increment) := by
  unfold assignments at h
  obtain ⟨⟨first, increment⟩, hparameters, h⟩ := except_bind_ok h
  obtain ⟨olds, holds, h⟩ := except_bind_ok h
  dsimp only at h
  rw [select_eq] at h
  refine ⟨first, increment, olds, hparameters, mapError_ok holds, ?_⟩
  by_cases hempty : olds.filter (isSelected selection) = []
  · rw [hempty, List.isEmpty_nil, if_pos rfl] at h
    cases h
    rw [hempty]
    exact ⟨rfl, fun hne => absurd rfl hne⟩
  · rw [if_neg (by simpa using hempty)] at h
    obtain ⟨⟨lower, upper⟩, hguards, h⟩ := except_bind_ok h
    dsimp only at h
    by_cases hmisfit : first < lower ∨
        upper < first + increment * ((olds.filter (isSelected selection)).length - 1 : Nat)
    · rw [if_pos hmisfit] at h
      cases h
    · rw [if_neg hmisfit] at h
      cases h
      have hlength := List.length_pos_iff.2 hempty
      refine ⟨rfl, fun _ => ⟨lower, upper, hguards, by omega, ?_⟩⟩
      obtain ⟨k, hk⟩ := Nat.exists_eq_add_of_lt hlength
      rw [hk, Nat.zero_add] at hmisfit ⊢
      push_cast
      rw [Int.mul_add, Int.mul_one]
      simp only [Nat.add_sub_cancel] at hmisfit
      omega

/-- A new number is within the limit of a line. -/
theorem inLimit_newNumber? {selected : List Reference} {first increment : Int}
    (hfirst : 0 ≤ first) (hincrement : 0 < increment)
    (hlast : selected ≠ [] → first + increment * selected.length ≤ 32767 + increment) (row : Nat) :
    InLimit (newNumber? (assign first increment selected) row) := by
  intro n hn
  obtain ⟨p, hp, rfl⟩ := Option.map_eq_some_iff.1 hn
  obtain ⟨⟨r, i⟩, hi, rfl⟩ := List.mem_map.1 (List.mem_of_find?_eq_some hp)
  have hlt : i < selected.length := by
    obtain ⟨h, -⟩ := List.getElem?_eq_some_iff.1 (List.mem_zipIdx_iff_getElem?.1 hi)
    exact h
  have hbound := hlast (List.ne_nil_of_length_pos (by omega))
  have hlow : 0 ≤ increment * (i : Int) := Int.mul_nonneg (by omega) (by omega)
  have hhigh : increment * ((i : Int) + 1) ≤ increment * selected.length :=
    Int.mul_le_mul_of_nonneg_left (by omega) (by omega)
  rw [Int.mul_add, Int.mul_one] at hhigh
  rw [lineNumberLimit]
  dsimp only
  omega

theorem upper_le_limit {lines : List (List Char)} {selection : Option Selection}
    {lower upper : Int} (h : guards lines selection = .ok (lower, upper)) : upper ≤ 32767 := by
  cases selection with
  | none =>
    cases h
    exact Int.le_refl _
  | some selection =>
    obtain ⟨-, -, -, -, -, -, -, rfl⟩ := guards_some h
    exact clampNumber_le _

/-- The recounted numbers increase if the new ones fit between the guards. -/
theorem increasing_recount {text : List Char} {olds : List Reference}
    (hread : Read (primaryLeaves (Text.lines text) 0) olds) (hguards : GuardsNumbered text)
    (hnumbers : Increasing olds) (hlimit : ∀ r ∈ olds, r.number ≤ 32767)
    {selection : Option Selection} {first increment : Int} (hincrement : 0 < increment)
    (hfit : olds.filter (isSelected selection) ≠ [] → ∃ lower upper,
      guards (Text.lines text) selection = .ok (lower, upper) ∧ lower ≤ first ∧
      first + increment * (olds.filter (isSelected selection)).length ≤ upper + increment) :
    (recount (isSelected selection) increment first olds).Pairwise (· < ·) := by
  by_cases hempty : olds.filter (isSelected selection) = []
  · -- nothing is counted
    have hnone : ∀ r ∈ olds, isSelected selection r = false := by
      simpa [List.filter_eq_nil_iff] using hempty
    have hguarded : Guarded (isSelected selection) first (first - increment) olds := by
      refine List.Pairwise.imp_of_mem (fun {r r'} hr hr' hlt => ⟨hlt, ?_, ?_⟩) hnumbers
      · intro _ hsel
        rw [hnone r' hr'] at hsel
        cases hsel
      · intro hsel
        rw [hnone r hr] at hsel
        cases hsel
    exact pairwise_recount hincrement hguarded (Int.le_refl first) (by simp [hempty])
  · obtain ⟨lower, upper, hg, hlow, hhigh⟩ := hfit hempty
    exact pairwise_recount hincrement
      (guarded_of_guards hread hguards hnumbers hlimit hg hlow (Int.le_refl upper))
      (Int.le_refl first) hhigh

/-- The text after a renumbering, line by line, and the numbers of its lines, in whatever order they
are. -/
theorem exists_recounted {text : List Char} {start step : Json} {updateReferences : Bool}
    {selection : Option Selection} {es : List Edit}
    (h : edits text start step updateReferences selection = .ok es) :
    ∃ first increment olds assigned new news, parameters start step = .ok (first, increment) ∧
      primaries (program text) = .ok olds ∧
      assigned = assign first increment (olds.filter (isSelected selection)) ∧
      editsOf text assigned updateReferences = .ok es ∧
      (olds.filter (isSelected selection) ≠ [] → ∃ lower upper,
        guards (Text.lines text) selection = .ok (lower, upper) ∧ lower ≤ first ∧
        first + increment * (olds.filter (isSelected selection)).length ≤ upper + increment) ∧
      (∀ row, InLimit (newNumber? assigned row)) ∧
      applyEdits? text es = some new ∧
      (Text.lines new = (Text.lines text).zipIdx.map fun (s, row) =>
        patch 0 s (lineChanges assigned updateReferences row s)) ∧
      primaries (program new) = .ok news ∧
      news.map (·.span.start.row) = olds.map (·.span.start.row) ∧
      news.map (fun r => (r.number : Int)) =
        recount (isSelected selection) increment first olds := by
  unfold edits at h
  obtain ⟨assigned, hassigned, h⟩ := except_bind_ok h
  obtain ⟨first, increment, olds, hparameters, holds, rfl, hfit⟩ := assignments_ok hassigned
  have hread : Read (primaryLeaves (Text.lines text) 0) olds :=
    read_of_mapM (by rw [← primaries_eq, holds])
  obtain ⟨hfirst, hincrement⟩ := parameters_ok hparameters
  have hlast : olds.filter (isSelected selection) ≠ [] →
      first + increment * (olds.filter (isSelected selection)).length ≤ 32767 + increment := by
    intro hne
    obtain ⟨lower, upper, hg, -, hle⟩ := hfit hne
    have := upper_le_limit hg
    omega
  have hnew := inLimit_newNumber? hfirst hincrement hlast
  have hsub : ((assign first increment (olds.filter (isSelected selection))).map (·.1)).Sublist
      olds := by
    rw [map_fst_assign]
    exact List.filter_sublist
  obtain ⟨new, happly, hlines⟩ := lines_of_editsOf hread hsub h
  obtain ⟨news, hreadNew, hplaces⟩ := read_patch updateReferences hnew hread
  rw [← hlines] at hreadNew
  have hprimaries : primaries (program new) = .ok news := by
    rw [primaries_eq]
    exact mapM_of_read hreadNew
  have hrows : news.map (·.span.start.row) = olds.map (·.span.start.row) := by
    simpa [Reference.place, Function.comp_def] using congrArg (List.map Prod.fst) hplaces
  have hrecount : news.map (fun r => (r.number : Int)) =
      recount (isSelected selection) increment first olds := by
    rw [← map_newNumber? _ _ _ (descending_of_read hread) fun r hr =>
      Int.le_trans (Int.le_refl 0) (le_row_of_read hread r hr)]
    simpa [Reference.place, Function.comp_def] using congrArg (List.map Prod.snd) hplaces
  exact ⟨first, increment, olds, _, new, news, hparameters, holds, rfl, h, hfit, hnew, happly,
    hlines, hprimaries, hrows, hrecount⟩

/-- If the lines were in order, their new numbers are in order too. -/
theorem exists_renumbered {text : List Char} {olds : List Reference}
    (holds : primaries (program text) = .ok olds) (hnumbers : Increasing olds)
    (hlimit : ∀ r ∈ olds, r.number ≤ 32767) (hguards : GuardsNumbered text) {start step : Json}
    {updateReferences : Bool} {selection : Option Selection} {es : List Edit}
    (h : edits text start step updateReferences selection = .ok es) :
    ∃ first increment assigned new news, parameters start step = .ok (first, increment) ∧
      assigned = assign first increment (olds.filter (isSelected selection)) ∧
      (∀ row, InLimit (newNumber? assigned row)) ∧
      applyEdits? text es = some new ∧
      (Text.lines new = (Text.lines text).zipIdx.map fun (s, row) =>
        patch 0 s (lineChanges assigned updateReferences row s)) ∧
      primaries (program new) = .ok news ∧
      news.map (·.span.start.row) = olds.map (·.span.start.row) ∧
      news.map (fun r => (r.number : Int)) =
        recount (isSelected selection) increment first olds ∧
      Increasing news ∧ ∀ r ∈ news, r.number ≤ 32767 := by
  obtain ⟨first, increment, olds', assigned, new, news, hparameters, holds', hassigned, -, hfit,
    hnew, happly, hlines, hnews, hrows, hrecount⟩ := exists_recounted h
  rw [holds] at holds'
  cases holds'
  have hread : Read (primaryLeaves (Text.lines text) 0) olds :=
    read_of_mapM (by rw [← primaries_eq, holds])
  obtain ⟨-, hincrement⟩ := parameters_ok hparameters
  refine ⟨first, increment, assigned, new, news, hparameters, hassigned, hnew, happly, hlines,
    hnews, hrows, hrecount, ?_, ?_⟩
  · have hpairs := increasing_recount hread hguards hnumbers hlimit hincrement hfit
    rw [← hrecount, List.pairwise_map] at hpairs
    exact hpairs.imp fun hlt => Int.ofNat_lt.1 hlt
  · intro r hr
    have hmem : (r.number : Int) ∈ recount (isSelected selection) increment first olds := by
      rw [← hrecount]
      exact List.mem_map_of_mem hr
    rcases mem_recount hincrement hmem with ⟨-, hle, r', hr', hsel⟩ | ⟨r', hr', -, heq⟩
    · obtain ⟨lower, upper, hg, -, hupper⟩ :=
        hfit (List.ne_nil_of_mem (List.mem_filter.2 ⟨hr', hsel⟩))
      have := upper_le_limit hg
      omega
    · have := hlimit r' hr'
      omega

theorem isSelected_congr (selection : Option Selection) {r r' : Reference}
    (h : r.span.start.row = r'.span.start.row) :
    isSelected selection r = isSelected selection r' := by
  rw [isSelected, isSelected, h]

/-- The selected rows have the numbers of the count, all others their old numbers. -/
theorem filter_of_recount {selection : Option Selection} {increment next : Int}
    {olds news : List Reference}
    (hrows : news.map (·.span.start.row) = olds.map (·.span.start.row))
    (hnumbers : news.map (fun r => (r.number : Int)) =
      recount (isSelected selection) increment next olds) :
    (news.filter (isSelected selection)).map (fun r => (r.number : Int)) =
        (List.range (olds.filter (isSelected selection)).length).map
          (fun k : Nat => next + increment * (k : Int)) ∧
      (news.filter (!isSelected selection ·)).map Reference.place =
        (olds.filter (!isSelected selection ·)).map Reference.place := by
  induction olds generalizing news next with
  | nil =>
    rw [List.map_nil, List.map_eq_nil_iff] at hrows
    rw [hrows]
    exact ⟨rfl, rfl⟩
  | cons r olds ih =>
    cases news with
    | nil => cases hrows
    | cons r' news =>
      rw [List.map_cons, List.map_cons, List.cons.injEq] at hrows
      have hsame := isSelected_congr selection hrows.1
      rw [List.map_cons, recount] at hnumbers
      cases hsel : isSelected selection r with
      | true =>
        rw [hsel, if_pos rfl, List.cons.injEq] at hnumbers
        obtain ⟨hcount, hothers⟩ := ih hrows.2 hnumbers.2
        rw [hsel] at hsame
        rw [List.filter_cons_of_pos hsame, List.filter_cons_of_pos hsel,
          List.filter_cons_of_neg (by simp [hsame]), List.filter_cons_of_neg (by simp [hsel])]
        refine ⟨?_, hothers⟩
        rw [List.map_cons, hcount, List.length_cons, List.range_succ_eq_map, List.map_cons,
          List.map_map, hnumbers.1]
        refine congr (congrArg List.cons (by simp)) (List.map_congr_left fun k _ => ?_)
        rw [Function.comp_apply, Int.natCast_succ, Int.mul_add, Int.mul_one]
        omega
      | false =>
        rw [hsel, if_neg (by simp), List.cons.injEq] at hnumbers
        obtain ⟨hcount, hothers⟩ := ih hrows.2 hnumbers.2
        rw [hsel] at hsame
        rw [List.filter_cons_of_neg (by simp [hsame]), List.filter_cons_of_neg (by simp [hsel]),
          List.filter_cons_of_pos (by simp [hsame]), List.filter_cons_of_pos (by simp [hsel])]
        refine ⟨hcount, ?_⟩
        rw [List.map_cons, List.map_cons, hothers, Reference.place, Reference.place, hrows.1,
          hnumbers.1]

/-- Renumbering keeps the lines in order: the selected ones are counted from the first number on,
the others keep their numbers, and all numbers increase and are within the limit. -/
theorem lines_in_order {text : List Char} {olds : List Reference}
    (holds : primaries (program text) = .ok olds) (hnumbers : Increasing olds)
    (hlimit : ∀ r ∈ olds, r.number ≤ 32767) (hguards : GuardsNumbered text) {start step : Json}
    {updateReferences : Bool} {selection : Option Selection} {es : List Edit}
    (h : edits text start step updateReferences selection = .ok es) :
    ∃ first increment new news, parameters start step = .ok (first, increment) ∧
      applyEdits? text es = some new ∧ primaries (program new) = .ok news ∧
      Increasing news ∧ (∀ r ∈ news, r.number ≤ 32767) ∧
      news.map (·.span.start.row) = olds.map (·.span.start.row) ∧
      (select selection news).map (fun r => (r.number : Int)) =
        (List.range (select selection olds).length).map
          (fun k : Nat => first + increment * (k : Int)) ∧
      (news.filter (!isSelected selection ·)).map Reference.place =
        (olds.filter (!isSelected selection ·)).map Reference.place := by
  obtain ⟨first, increment, -, new, news, hparameters, -, -, happly, -, hnews, hrows, hrecount,
    hincreasing, hbound⟩ := exists_renumbered holds hnumbers hlimit hguards h
  obtain ⟨hcount, hothers⟩ := filter_of_recount hrows hrecount
  simp only [select_eq]
  exact ⟨first, increment, new, news, hparameters, happly, hnews, hincreasing, hbound, hrows,
    hcount, hothers⟩

/-- The line in the middle is given the least number that the guards allow. -/
theorem lines_in_order_between :
    ∃ first increment new news, parameters (.int 11) (.str " 5 ") = .ok (first, increment) ∧
      applyEdits? "10 GOTO 20\n20 END\n\n 30 GOSUB 20".toList
        [⟨⟨⟨1, 0⟩, ⟨1, 3⟩⟩, "11 ".toList⟩, ⟨⟨⟨0, 8⟩, ⟨0, 10⟩⟩, "11".toList⟩,
          ⟨⟨⟨3, 10⟩, ⟨3, 12⟩⟩, "11".toList⟩] = some new ∧
      primaries (program new) = .ok news ∧
      Increasing news ∧ (∀ r ∈ news, r.number ≤ 32767) ∧
      news.map (·.span.start.row) = [0, 1, 3] ∧
      (select (some ⟨1, 2⟩) news).map (fun r => (r.number : Int)) =
        (List.range 1).map (fun k : Nat => first + increment * (k : Int)) ∧
      (news.filter (!isSelected (some ⟨1, 2⟩) ·)).map Reference.place = [(0, 10), (3, 30)] :=
  @lines_in_order _
    [⟨10, ⟨⟨0, 0⟩, ⟨0, 3⟩⟩, 0, 1⟩, ⟨20, ⟨⟨1, 0⟩, ⟨1, 3⟩⟩, 0, 1⟩, ⟨30, ⟨⟨3, 0⟩, ⟨3, 4⟩⟩, 1, 1⟩]
    (by decide +kernel) (by unfold Increasing; decide) (by decide) (by decide +kernel)
    (.int 11) (.str " 5 ") true (some ⟨1, 2⟩) _ (by decide +kernel)

end IntegerBasic.Renumber
