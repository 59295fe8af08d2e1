import IntegerBasic.Text.Lines

/-!
# Texts from rows

A text is its rows with line feeds between them, and rows without line feeds are the rows of the
text that they make up.
-/

namespace IntegerBasic.Text

def unrows (rs : List (List Char)) : List Char := List.intercalate ['\n'] rs

@[simp] theorem unrows_singleton (row : List Char) : unrows [row] = row :=
  List.intercalate_singleton

theorem unrows_cons {row : List Char} {rs : List (List Char)} (h : rs ≠ []) :
    unrows (row :: rs) = row ++ '\n' :: unrows rs := by
  rw [unrows, List.intercalate_cons_of_ne_nil h]
  simp [unrows]

theorem unrows_consFirst (c : Char) {rs : List (List Char)} (h : rs ≠ []) :
    unrows (consFirst c rs) = c :: unrows rs := by
  cases rs with
  | nil => exact absurd rfl h
  | cons row rs =>
    cases rs with
    | nil => simp [consFirst]
    | cons row' rs => simp [consFirst, unrows_cons]

/-- The rows of a text make up the text. -/
theorem unrows_rows (s : List Char) : unrows (rows s) = s := by
  induction s with
  | nil => rfl
  | cons c rest ih =>
    rw [rows]
    by_cases hc : c = '\n'
    · rw [if_pos hc, unrows_cons (rows_ne_nil rest), ih, hc, List.nil_append]
    · rw [if_neg hc, unrows_consFirst c (rows_ne_nil rest), ih]

/-- A row is a part of the text. -/
theorem part_of_mem_unrows {rs : List (List Char)} {row : List Char} (h : row ∈ rs) :
    row <:+: unrows rs := by
  induction rs with
  | nil => cases h
  | cons first rs ih =>
    by_cases hrs : rs = []
    · subst hrs
      simp only [List.mem_singleton.1 h, unrows_singleton, List.infix_rfl]
    · rw [unrows_cons hrs]
      rcases List.mem_cons.1 h with rfl | h
      · exact (List.prefix_append _ _).isInfix
      · exact (ih h).trans ⟨first ++ ['\n'], [], by simp⟩

/-- There is no line feed in a row. -/
theorem newline_not_mem_rows {s row : List Char} (h : row ∈ rows s) : '\n' ∉ row := by
  induction s generalizing row with
  | nil =>
    have hrow : row = [] := by simpa [rows] using h
    simp [hrow]
  | cons c rest ih =>
    rw [rows] at h
    by_cases hc : c = '\n'
    · rw [if_pos hc] at h
      rcases List.mem_cons.1 h with rfl | h
      · simp
      · exact ih h
    · rw [if_neg hc] at h
      cases hrs : rows rest with
      | nil => exact absurd hrs (rows_ne_nil rest)
      | cons first more =>
        rw [hrs, consFirst] at h
        rcases List.mem_cons.1 h with rfl | h
        · have hfirst := ih (hrs ▸ List.mem_cons_self)
          simp [Ne.symm hc, hfirst]
        · exact ih (hrs ▸ List.mem_cons_of_mem _ h)

theorem rows_of_not_mem {row : List Char} (h : '\n' ∉ row) : rows row = [row] := by
  induction row with
  | nil => rfl
  | cons c row ih =>
    rw [List.mem_cons, not_or] at h
    rw [rows, if_neg (Ne.symm h.1), ih h.2, consFirst]

theorem rows_append {row : List Char} (h : '\n' ∉ row) (s : List Char) :
    rows (row ++ '\n' :: s) = row :: rows s := by
  induction row with
  | nil => rw [List.nil_append, rows, if_pos rfl]
  | cons c row ih =>
    rw [List.mem_cons, not_or] at h
    rw [List.cons_append, rows, if_neg (Ne.symm h.1), ih h.2, consFirst]

/-- Rows without line feeds are the rows of the text that they make up. -/
theorem rows_unrows {rs : List (List Char)} (hne : rs ≠ []) (h : ∀ row ∈ rs, '\n' ∉ row) :
    rows (unrows rs) = rs := by
  induction rs with
  | nil => exact absurd rfl hne
  | cons row rs ih =>
    have hrow := h row List.mem_cons_self
    cases rs with
    | nil => rw [unrows_singleton, rows_of_not_mem hrow]
    | cons row' rs =>
      have hmore := ih (List.cons_ne_nil _ _) fun r hr => h r (List.mem_cons_of_mem _ hr)
      rw [unrows_cons (List.cons_ne_nil _ _), rows_append hrow, hmore]

theorem dropReturns_cons {row : List Char} {rs : List (List Char)} (h : rs ≠ []) :
    dropReturns (row :: rs) = dropReturn row :: dropReturns rs := by
  cases rs with
  | nil => exact absurd rfl h
  | cons row' rs => rfl

/-- Induction on rows: all rows but the last may be ended by a carriage return. -/
@[elab_as_elim]
theorem dropReturns_induction {P : List (List Char) → List (List Char) → Prop} (nil : P [] [])
    (last : ∀ row, P [row] [row])
    (cons : ∀ row more, more ≠ [] → P more (dropReturns more) →
      P (row :: more) (dropReturn row :: dropReturns more))
    (rs : List (List Char)) : P rs (dropReturns rs) := by
  induction rs with
  | nil => exact nil
  | cons row more ih =>
    by_cases hmore : more = []
    · rw [hmore]
      exact last row
    · rw [dropReturns_cons hmore]
      exact cons row more hmore ih

theorem dropReturn_of_not_mem {row : List Char} (h : '\r' ∉ row) : dropReturn row = row :=
  if_neg fun hlast => h (List.mem_of_getLast? hlast)

/-- Lines that are ended by line feeds, and the empty line behind the last of them. -/
theorem lines_flatMap {ls : List (List Char)} (h : ∀ l ∈ ls, '\n' ∉ l ∧ '\r' ∉ l) :
    lines (ls.flatMap (· ++ ['\n'])) = ls ++ [[]] := by
  induction ls with
  | nil => rfl
  | cons l ls ih =>
    obtain ⟨⟨hline, hreturn⟩, hmore⟩ := List.forall_mem_cons.1 h
    have hsplit : (l :: ls).flatMap (· ++ ['\n']) = l ++ '\n' :: ls.flatMap (· ++ ['\n']) := by
      simp
    rw [hsplit, lines, rows_append hline, dropReturns_cons (rows_ne_nil _),
      dropReturn_of_not_mem hreturn, ← lines, ih hmore, List.cons_append]

theorem dropReturn_prefix (row : List Char) : dropReturn row <+: row := by
  unfold dropReturn
  split
  · exact List.dropLast_prefix row
  · exact List.prefix_rfl

theorem mem_dropReturns {rs : List (List Char)} {line : List Char} (h : line ∈ dropReturns rs) :
    ∃ row ∈ rs, line <+: row := by
  induction rs with
  | nil => cases h
  | cons row rs ih =>
    by_cases hrs : rs = []
    · subst hrs
      rw [dropReturns, List.mem_singleton] at h
      exact ⟨row, List.mem_cons_self, h ▸ List.prefix_rfl⟩
    · rw [dropReturns_cons hrs] at h
      rcases List.mem_cons.1 h with rfl | h
      · exact ⟨row, List.mem_cons_self, dropReturn_prefix row⟩
      · obtain ⟨row', hrow', hline⟩ := ih h
        exact ⟨row', List.mem_cons_of_mem _ hrow', hline⟩

/-- A line stands at the front of its row. -/
theorem exists_row_of_line {s line : List Char} {row : Nat} (h : (lines s)[row]? = some line) :
    ∃ r, (rows s)[row]? = some r ∧ line <+: r := by
  have hrows : ∀ {rs : List (List Char)} {row : Nat}, (dropReturns rs)[row]? = some line →
      ∃ r, rs[row]? = some r ∧ line <+: r := by
    intro rs
    induction rs using dropReturns_induction with
    | nil => simp
    | last r => exact fun h => ⟨line, h, List.prefix_rfl⟩
    | cons r more _ ih =>
      intro row h
      cases row with
      | zero =>
        cases h
        exact ⟨r, rfl, dropReturn_prefix r⟩
      | succ row => exact ih h
  exact hrows h

/-- A line is a part of the text. -/
theorem part_of_mem_lines {s line : List Char} (h : line ∈ lines s) : line <:+: s := by
  obtain ⟨row, hrow, hline⟩ := mem_dropReturns h
  have hpart := part_of_mem_unrows hrow
  rw [unrows_rows] at hpart
  exact hline.isInfix.trans hpart

end IntegerBasic.Text
