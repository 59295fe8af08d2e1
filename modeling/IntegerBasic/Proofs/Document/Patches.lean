import Mathlib.Data.List.Forall2
import IntegerBasic.Document.Edit
import IntegerBasic.Proofs.Text.Rows

/-!
# Edits row by row

Edits that stay within rows and do not overlap can be carried out row by row. A patch replaces
stretches of one row, from left to right. The edits of all rows, in whatever order they are given,
patch every row on its own.
-/

namespace IntegerBasic.Document

structure Change where
  start : Nat
  stop : Nat
  new : List Char

def patch (col : Nat) (s : List Char) : List Change → List Char
  | [] => s
  | c :: more =>
    s.take (c.start - col) ++ (c.new ++ patch c.stop (s.drop (c.stop - col)) more)

/-- The changes follow one another between two columns, and none of them is empty. -/
def Fits (col size : Nat) : List Change → Prop
  | [] => col ≤ size
  | c :: more => col ≤ c.start ∧ c.start < c.stop ∧ Fits c.stop size more

def Change.edit (row : Nat) (c : Change) : Edit :=
  ⟨⟨⟨row, c.start⟩, ⟨row, c.stop⟩⟩, c.new⟩

def rowEdits (row : Nat) : List (List Change) → List Edit
  | [] => []
  | cs :: more => cs.map (·.edit row) ++ rowEdits (row + 1) more

def applyEdit? (starts : List Nat) (text : List Char) (edit : Edit) : Option (List Char) := do
  let start ← offset? starts edit.range.start
  let stop ← offset? starts edit.range.stop
  return replace text start stop edit.newText

theorem applyEdits?_eq_foldlM (text : List Char) (edits : List Edit) :
    applyEdits? text edits =
      (ordered edits).foldlM (applyEdit? (rowStarts 0 (Text.rows text))) text := rfl

theorem offset?_eq {starts : List Nat} {row base : Nat} (h : starts[row]? = some base) (col : Nat) :
    offset? starts ⟨row, col⟩ = some ((base + col : Nat) : Int) := by
  have hlt : row < starts.length := (List.getElem?_eq_some_iff.1 h).1
  have hplace : Index.place? starts.length (row : Int) = some row := by
    simp [Index.place?, hlt]
  simp [offset?, hplace, h]

/-- A stretch in the middle of a text is replaced. -/
theorem applyEdit?_of_offsets {starts : List Nat} {e : Edit} (before old behind : List Char)
    (hstart : offset? starts e.range.start = some (before.length : Int))
    (hstop : offset? starts e.range.stop = some ((before.length + old.length : Nat) : Int)) :
    applyEdit? starts (before ++ (old ++ behind)) e = some (before ++ (e.newText ++ behind)) := by
  have hfloor : ∀ n : Nat, Index.floor (before ++ (old ++ behind)) (n : Int) = n := by
    intro n
    simp [Index.floor]
  have hdrop : (before ++ (old ++ behind)).drop (before.length + old.length) = behind := by
    rw [← List.append_assoc, ← List.length_append]
    exact List.drop_left
  unfold applyEdit?
  rw [hstart, hstop]
  simp only [Option.bind_eq_bind, Option.bind_some, replace, hfloor, hdrop, List.take_left]
  rfl

theorem applyEdit?_eq {starts : List Nat} {row base : Nat} (h : starts[row]? = some base)
    (c : Change) (before old behind : List Char) (hbefore : before.length = base + c.start)
    (hold : before.length + old.length = base + c.stop) :
    applyEdit? starts (before ++ (old ++ behind)) (c.edit row) =
      some (before ++ (c.new ++ behind)) := by
  apply applyEdit?_of_offsets
  · rw [hbefore]
    exact offset?_eq h c.start
  · rw [hold]
    exact offset?_eq h c.stop

theorem Fits.le {col size : Nat} {cs : List Change} (h : Fits col size cs) : col ≤ size := by
  induction cs generalizing col with
  | nil => exact h
  | cons c cs ih =>
    have := ih h.2.2
    have := h.1
    have := h.2.1
    omega

/-- The edits of one row, carried out from its end to its front, patch the row. -/
theorem foldlM_row {starts : List Nat} {row base : Nat} (h : starts[row]? = some base)
    (cs : List Change) (before s behind : List Char) (col : Nat)
    (hbefore : before.length = base + col) (hfits : Fits col (col + s.length) cs) :
    (cs.map (·.edit row)).reverse.foldlM (applyEdit? starts) (before ++ (s ++ behind)) =
      some (before ++ (patch col s cs ++ behind)) := by
  induction cs generalizing before s col with
  | nil => rfl
  | cons c cs ih =>
    obtain ⟨hstart, hstop, hrest⟩ := hfits
    have hle := hrest.le
    have hsplit : before ++ (s ++ behind) =
        (before ++ s.take (c.stop - col)) ++ (s.drop (c.stop - col) ++ behind) := by
      rw [List.append_assoc, ← List.append_assoc (s.take _), List.take_append_drop]
    have hlength : (s.take (c.stop - col)).length = c.stop - col := by
      rw [List.length_take]
      omega
    have hend : c.stop + (s.drop (c.stop - col)).length = col + s.length := by
      rw [List.length_drop]
      omega
    have hmore := ih (before ++ s.take (c.stop - col)) (s.drop (c.stop - col)) c.stop
      (by rw [List.length_append, hlength]; omega) (by rw [hend]; exact hrest)
    -- what is replaced reaches from the start of the change to the text patched so far
    have htake : s.take (c.stop - col) =
        s.take (c.start - col) ++ (s.take (c.stop - col)).drop (c.start - col) := by
      have := (List.take_append_drop (c.start - col) (s.take (c.stop - col))).symm
      rwa [List.take_take, Nat.min_eq_left (by omega)] at this
    have hedit := applyEdit?_eq h c (before ++ s.take (c.start - col))
      ((s.take (c.stop - col)).drop (c.start - col))
      (patch c.stop (s.drop (c.stop - col)) cs ++ behind)
      (by rw [List.length_append, List.length_take]; omega)
      (by rw [List.length_append, List.length_drop, hlength, List.length_take]; omega)
    rw [List.map_cons, List.reverse_cons, List.foldlM_append, hsplit, hmore]
    rw [htake]
    simp only [List.append_assoc] at hedit ⊢
    simpa [patch] using hedit

/-- The edits of all rows, carried out from the last to the first, patch every row. -/
theorem foldlM_rows {starts : List Nat} (rs : List (List Char)) (changes : List (List Change))
    (before : List Char) (row : Nat) (hne : rs ≠ [])
    (hstarts : starts.drop row = rowStarts before.length rs)
    (hfits : List.Forall₂ (fun r cs => Fits 0 r.length cs) rs changes) :
    (rowEdits row changes).reverse.foldlM (applyEdit? starts) (before ++ Text.unrows rs) =
      some (before ++ Text.unrows (List.zipWith (patch 0) rs changes)) := by
  induction hfits generalizing before row with
  | nil => exact absurd rfl hne
  | @cons r cs rs changes hfit hfits ih =>
    have hbase : starts[row]? = some before.length := by
      have := congrArg (·[0]?) hstarts
      simpa [rowStarts] using this
    have hrow : ∀ behind, (cs.map (·.edit row)).reverse.foldlM (applyEdit? starts)
        (before ++ (r ++ behind)) = some (before ++ (patch 0 r cs ++ behind)) :=
      fun behind => foldlM_row hbase cs before r behind 0 rfl (by simpa using hfit)
    rw [rowEdits, List.reverse_append, List.foldlM_append, List.zipWith_cons_cons]
    cases hfits with
    | nil => simpa [rowEdits] using hrow []
    | @cons r' cs' rs changes hfit' hfits =>
      have hnext : starts.drop (row + 1) = rowStarts (before ++ (r ++ ['\n'])).length (r' :: rs) := by
        have := congrArg List.tail hstarts
        rw [List.tail_drop] at this
        rw [this, rowStarts, List.tail_cons]
        congr 1
        simp only [List.length_append, List.length_cons, List.length_nil]
        omega
      have hmore := ih (before ++ (r ++ ['\n'])) (row + 1) (List.cons_ne_nil _ _) hnext
      have hjoin : ∀ tail, before ++ (r ++ ['\n']) ++ tail = before ++ (r ++ '\n' :: tail) := by
        simp
      rw [hjoin, hjoin] at hmore
      rw [Text.unrows_cons (List.cons_ne_nil _ _), hmore, Text.unrows_cons (by simp)]
      exact hrow _

def Position.lt (p q : Position) : Prop :=
  p.line < q.line ∨ (p.line = q.line ∧ p.character < q.character)

theorem le_eq_true_iff (p q : Position) :
    p.le q = true ↔ p.line < q.line ∨ (p.line = q.line ∧ p.character ≤ q.character) := by
  simp [Position.le]

theorem Fits.le_start {col size : Nat} {cs : List Change} (h : Fits col size cs) :
    ∀ c ∈ cs, col ≤ c.start := by
  induction cs generalizing col with
  | nil => simp
  | cons c cs ih =>
    obtain ⟨hstart, hstop, hrest⟩ := h
    intro d hd
    rcases List.mem_cons.1 hd with rfl | hd
    · exact hstart
    · have := ih hrest d hd
      omega

/-- The changes of a row stand one behind the other. -/
theorem Fits.pairwise {col size : Nat} {cs : List Change} (h : Fits col size cs) :
    cs.Pairwise fun c d => c.start < d.start ∧ c.stop ≤ d.start := by
  induction cs generalizing col with
  | nil => exact .nil
  | cons c cs ih =>
    obtain ⟨hstart, hstop, hrest⟩ := h
    refine .cons ?_ (ih hrest)
    intro d hd
    have := hrest.le_start d hd
    omega

theorem Fits.stop_le {col size : Nat} {cs : List Change} (h : Fits col size cs) :
    ∀ c ∈ cs, c.start < c.stop ∧ c.stop ≤ size := by
  induction cs generalizing col with
  | nil => simp
  | cons c cs ih =>
    obtain ⟨hstart, hstop, hrest⟩ := h
    exact List.forall_mem_cons.2 ⟨⟨hstop, hrest.le⟩, ih hrest⟩

/-- An edit of the rows is that of a change of one row. -/
theorem mem_rowEdits {row : Nat} {changes : List (List Change)} {e : Edit} :
    e ∈ rowEdits row changes ↔
      ∃ (k : Nat) (cs : List Change),
        changes[k]? = some cs ∧ ∃ c ∈ cs, c.edit (row + k) = e := by
  induction changes generalizing row with
  | nil => simp [rowEdits]
  | cons cs changes ih =>
    rw [rowEdits, List.mem_append, List.mem_map, ih]
    constructor
    · rintro (⟨c, hc, rfl⟩ | ⟨k, cs', hk, c, hc, rfl⟩)
      · exact ⟨0, cs, rfl, c, hc, rfl⟩
      · exact ⟨k + 1, cs', hk, c, hc, by rw [Nat.add_right_comm, Nat.add_assoc]⟩
    · rintro ⟨k, cs', hk, c, hc, rfl⟩
      cases k with
      | zero =>
        cases hk
        exact .inl ⟨c, hc, rfl⟩
      | succ k => exact .inr ⟨k, cs', hk, c, hc, by rw [Nat.add_right_comm, Nat.add_assoc]⟩

/-- The edits of all rows stand one behind the other. -/
theorem pairwise_rowEdits (row : Nat) {changes : List (List Change)}
    (hfits : ∀ cs ∈ changes, ∃ size, Fits 0 size cs) :
    (rowEdits row changes).Pairwise fun e f =>
      e.range.start.lt f.range.start ∧ e.range.stop.le f.range.start = true := by
  induction changes generalizing row with
  | nil => exact .nil
  | cons cs changes ih =>
    obtain ⟨size, hfit⟩ := hfits cs List.mem_cons_self
    rw [rowEdits, List.pairwise_append]
    refine ⟨?_, ih (row + 1) fun cs hcs => hfits cs (List.mem_cons_of_mem _ hcs), ?_⟩
    · rw [List.pairwise_map]
      refine hfit.pairwise.imp fun {c d} hcd => ⟨.inr ⟨rfl, ?_⟩, (le_eq_true_iff _ _).2 ?_⟩
      · simpa [Change.edit] using hcd.1
      · simpa [Change.edit] using hcd.2
    · intro e he f hf
      obtain ⟨c, -, rfl⟩ := List.mem_map.1 he
      obtain ⟨k, _, -, d, -, rfl⟩ := mem_rowEdits.1 hf
      have hrow : (row : Int) < (row + 1 + k : Nat) := by omega
      exact ⟨.inl hrow, (le_eq_true_iff _ _).2 (.inl hrow)⟩

theorem pairwise_ordered (edits : List Edit) :
    (ordered edits).Pairwise fun e f => f.range.start.le e.range.start = true := by
  apply List.pairwise_mergeSort
  · intro e f g h₁ h₂
    rw [le_eq_true_iff] at h₁ h₂ ⊢
    omega
  · intro e f
    rw [Bool.or_eq_true, le_eq_true_iff, le_eq_true_iff]
    omega

/-- Edits that begin one behind the other are carried out from the last to the first, in whatever
order they are given. -/
theorem ordered_eq_reverse {edits sorted : List Edit} (hperm : edits.Perm sorted)
    (hsorted : sorted.Pairwise fun e f => e.range.start.lt f.range.start) :
    ordered edits = sorted.reverse := by
  have hle : sorted.reverse.Pairwise fun e f => f.range.start.le e.range.start = true := by
    rw [List.pairwise_reverse]
    apply hsorted.imp
    intro e f h
    rw [le_eq_true_iff]
    rcases h with h | h <;> omega
  have hall : (ordered edits).Perm sorted.reverse :=
    (List.mergeSort_perm _ _).trans (hperm.trans (List.reverse_perm sorted).symm)
  refine List.Perm.eq_of_pairwise ?_ (pairwise_ordered edits) hle hall
  intro e f he hf h₁ h₂
  -- of edits that begin at one place there is only one in the list
  have hone : ∀ x ∈ sorted, ∀ y ∈ sorted, x.range.start = y.range.start → x = y := by
    have hlt : ∀ {p q : Position}, p.lt q → p ≠ q := by
      rintro p q h rfl
      rcases h with h | h <;> omega
    intro x hx y hy
    refine List.Pairwise.forall_of_forall_of_flip
      (R := fun x y : Edit => x.range.start = y.range.start → x = y) (fun x _ _ => rfl) ?_ ?_ hx hy
    · exact hsorted.imp fun h heq => absurd heq (hlt h)
    · exact hsorted.imp fun h heq => absurd heq.symm (hlt h)
  have hstart : e.range.start = f.range.start := by
    rw [le_eq_true_iff] at h₁ h₂
    obtain ⟨⟨⟨el, ec⟩, _⟩, _⟩ := e
    obtain ⟨⟨⟨fl, fc⟩, _⟩, _⟩ := f
    simp only [Position.mk.injEq] at h₁ h₂ ⊢
    omega
  exact hone e (by simpa using hall.subset he) f (by simpa using hf) hstart

/-- Edits that stay within rows and do not overlap patch every row. -/
theorem applyEdits?_unrows {rs : List (List Char)} {changes : List (List Change)}
    {edits : List Edit} (hne : rs ≠ []) (hrows : ∀ row ∈ rs, '\n' ∉ row)
    (hfits : List.Forall₂ (fun r cs => Fits 0 r.length cs) rs changes)
    (hperm : edits.Perm (rowEdits 0 changes)) :
    applyEdits? (Text.unrows rs) edits =
      some (Text.unrows (List.zipWith (patch 0) rs changes)) := by
  have hfit : ∀ cs ∈ changes, ∃ size, Fits 0 size cs := by
    intro cs hcs
    obtain ⟨k, hk, rfl⟩ := List.getElem_of_mem hcs
    have hlt : k < rs.length := hfits.length_eq ▸ hk
    exact ⟨_, hfits.get hlt hk⟩
  have hsorted := (pairwise_rowEdits 0 hfit).imp And.left
  rw [applyEdits?_eq_foldlM, ordered_eq_reverse hperm hsorted, Text.rows_unrows hne hrows]
  exact foldlM_rows rs changes [] 0 hne rfl hfits

theorem Fits.mono {col size size' : Nat} {cs : List Change} (h : Fits col size cs)
    (hle : size ≤ size') : Fits col size' cs := by
  induction cs generalizing col with
  | nil => exact Nat.le_trans h hle
  | cons c cs ih => exact ⟨h.1, h.2.1, ih h.2.2⟩

theorem Fits.of_le {col col' size : Nat} {cs : List Change} (h : Fits col' size cs)
    (hle : col ≤ col') : Fits col size cs := by
  cases cs with
  | nil => exact Nat.le_trans hle h
  | cons c cs => exact ⟨Nat.le_trans hle h.1, h.2⟩

/-- What stands behind the changes stays. -/
theorem patch_append {col : Nat} {s : List Char} {cs : List Change}
    (h : Fits col (col + s.length) cs) (t : List Char) :
    patch col (s ++ t) cs = patch col s cs ++ t := by
  induction cs generalizing col s with
  | nil => rfl
  | cons c cs ih =>
    obtain ⟨hstart, hstop, hrest⟩ := h
    have hle := hrest.le
    have hend : c.stop + (s.drop (c.stop - col)).length = col + s.length := by
      rw [List.length_drop]
      omega
    rw [patch, patch, List.take_append_of_le_length (by omega),
      List.drop_append_of_le_length (by omega), ih (by rw [hend]; exact hrest)]
    simp

/-- What stands before the changes stays. -/
theorem patch_append_left {col : Nat} (s : List Char) {t : List Char} {cs : List Change}
    {size : Nat} (h : Fits (col + s.length) size cs) :
    patch col (s ++ t) cs = s ++ patch (col + s.length) t cs := by
  cases cs with
  | nil => rfl
  | cons c cs =>
    obtain ⟨hstart, hstop, -⟩ := h
    have htake : (s ++ t).take (c.start - col) = s ++ t.take (c.start - (col + s.length)) := by
      rw [List.take_append, List.take_of_length_le (by omega), Nat.sub_sub]
    have hdrop : (s ++ t).drop (c.stop - col) = t.drop (c.stop - (col + s.length)) := by
      rw [List.drop_append, List.drop_of_length_le (by omega), List.nil_append, Nat.sub_sub]
    rw [patch, patch, htake, hdrop, List.append_assoc]

/-- The first character stays if all changes begin behind it. -/
theorem head?_patch {col : Nat} {s : List Char} {cs : List Change}
    (h : Fits col (col + s.length) cs) (hcs : ∀ c ∈ cs, col < c.start) :
    (patch col s cs).head? = s.head? := by
  cases cs with
  | nil => rfl
  | cons c cs =>
    have hstart := hcs c List.mem_cons_self
    have hle := h.2.2.le
    have hstop := h.2.1
    cases s with
    | nil =>
      rw [List.length_nil] at hle
      omega
    | cons x s =>
      obtain ⟨k, hk⟩ : ∃ k, c.start - col = k + 1 := ⟨c.start - col - 1, by omega⟩
      rw [patch, hk, List.take_succ_cons]
      rfl

/-- A character that comes into no change comes in by no patch. -/
theorem not_mem_patch {x : Char} {col : Nat} {s : List Char} {cs : List Change} (hs : x ∉ s)
    (hcs : ∀ c ∈ cs, x ∉ c.new) : x ∉ patch col s cs := by
  induction cs generalizing col s with
  | nil => exact hs
  | cons c cs ih =>
    have hnew := hcs c List.mem_cons_self
    have hmore : x ∉ patch c.stop (s.drop (c.stop - col)) cs :=
      ih (fun h => hs (List.mem_of_mem_drop h)) fun d hd => hcs d (List.mem_cons_of_mem _ hd)
    rw [patch, List.mem_append, List.mem_append]
    rintro (h | h | h)
    · exact hs (List.mem_of_mem_take h)
    · exact hnew h
    · exact hmore h

/-- A patch does not bring in a last character that no change holds. -/
theorem getLast?_of_patch {x : Char} {col : Nat} {s : List Char} {cs : List Change}
    (hfits : Fits col (col + s.length) cs) (hcs : ∀ c ∈ cs, c.new ≠ [] ∧ x ∉ c.new)
    (h : (patch col s cs).getLast? = some x) : s.getLast? = some x := by
  induction cs generalizing col s with
  | nil => exact h
  | cons c cs ih =>
    obtain ⟨hne, hnew⟩ := hcs c List.mem_cons_self
    obtain ⟨hstart, hstop, hrest⟩ := hfits
    have hle := hrest.le
    have hend : c.stop + (s.drop (c.stop - col)).length = col + s.length := by
      rw [List.length_drop]
      omega
    have hmore : (patch c.stop (s.drop (c.stop - col)) cs).getLast? = some x →
        (s.drop (c.stop - col)).getLast? = some x :=
      ih (by rw [hend]; exact hrest) fun d hd => hcs d (List.mem_cons_of_mem _ hd)
    rw [patch, List.getLast?_append, List.getLast?_append] at h
    cases hlast : (patch c.stop (s.drop (c.stop - col)) cs).getLast? with
    | none =>
      rw [hlast] at h
      have : c.new.getLast? = some x := by
        rw [List.getLast?_eq_some_getLast hne] at h ⊢
        simpa using h
      exact absurd (List.mem_of_getLast? this) hnew
    | some y =>
      rw [hlast] at h
      have hdrop := hmore (hlast.trans (by simpa using h))
      rw [List.getLast?_drop] at hdrop
      split at hdrop
      · cases hdrop
      · exact hdrop

/-- Taking off the carriage return and patching a row can be done in either order. -/
theorem dropReturn_patch {row : List Char} {cs : List Change}
    (hfits : Fits 0 (Text.dropReturn row).length cs)
    (hcs : ∀ c ∈ cs, c.new ≠ [] ∧ '\r' ∉ c.new) :
    Text.dropReturn (patch 0 row cs) = patch 0 (Text.dropReturn row) cs := by
  by_cases h : row.getLast? = some '\r'
  · obtain ⟨line, rfl⟩ := List.getLast?_eq_some_iff.1 h
    have hline : Text.dropReturn (line ++ ['\r']) = line := by
      simp [Text.dropReturn]
    rw [hline] at hfits ⊢
    rw [patch_append (by simpa using hfits)]
    simp [Text.dropReturn]
  · have hrow : Text.dropReturn row = row := by rw [Text.dropReturn, if_neg h]
    rw [hrow] at hfits ⊢
    rw [Text.dropReturn, if_neg]
    exact fun hlast => h (getLast?_of_patch (by simpa using hfits) hcs hlast)

theorem dropReturns_zipWith_patch {rs : List (List Char)} {changes : List (List Change)}
    (hfits : List.Forall₂ (fun line cs => Fits 0 line.length cs) (Text.dropReturns rs) changes)
    (hcs : ∀ cs ∈ changes, ∀ c ∈ cs, c.new ≠ [] ∧ '\r' ∉ c.new) :
    Text.dropReturns (List.zipWith (patch 0) rs changes) =
      List.zipWith (patch 0) (Text.dropReturns rs) changes := by
  induction rs using Text.dropReturns_induction generalizing changes with
  | nil => rfl
  | last row =>
    cases hfits with
    | cons h hnil =>
      cases hnil
      rfl
  | cons row more hrs ih =>
    cases hfits with
    | @cons _ cs _ changes h hmore =>
      have hlength : more.length = changes.length := by
        rw [← hmore.length_eq, Text.length_dropReturns]
      have hzip : List.zipWith (patch 0) more changes ≠ [] := by
        rw [← List.length_pos_iff, List.length_zipWith, ← hlength, Nat.min_self]
        exact List.length_pos_iff.2 hrs
      have hrest := ih hmore fun cs hcs' => hcs cs (List.mem_cons_of_mem _ hcs')
      rw [List.zipWith_cons_cons, List.zipWith_cons_cons, Text.dropReturns_cons hzip,
        dropReturn_patch h (hcs cs List.mem_cons_self), hrest]

/-- What fits a line fits the row that the line is taken from. -/
theorem fits_rows {rs : List (List Char)} {changes : List (List Change)}
    (hfits : List.Forall₂ (fun line cs => Fits 0 line.length cs) (Text.dropReturns rs) changes) :
    List.Forall₂ (fun row cs => Fits 0 row.length cs) rs changes := by
  induction rs using Text.dropReturns_induction generalizing changes with
  | nil => exact hfits
  | last row => exact hfits
  | cons row more _ ih =>
    cases hfits with
    | cons h hmore => exact .cons (h.mono (Text.dropReturn_prefix row).length_le) (ih hmore)

theorem mem_zipWith {α β γ : Type} {f : α → β → γ} {xs : List α} {ys : List β} {z : γ}
    (h : z ∈ List.zipWith f xs ys) : ∃ x y, x ∈ xs ∧ y ∈ ys ∧ f x y = z := by
  rw [← List.map_uncurry_zip_eq_zipWith] at h
  obtain ⟨⟨x, y⟩, hmem, rfl⟩ := List.mem_map.1 h
  exact ⟨x, y, (List.of_mem_zip hmem).1, (List.of_mem_zip hmem).2, rfl⟩

structure LineEdits (text : List Char) (changes : List (List Change)) (edits : List Edit) :
    Prop where
  fits : List.Forall₂ (fun line cs => Fits 0 line.length cs) (Text.lines text) changes
  within : ∀ cs ∈ changes, ∀ c ∈ cs, c.new ≠ [] ∧ '\n' ∉ c.new ∧ '\r' ∉ c.new
  perm : edits.Perm (rowEdits 0 changes)

/-- Such edits are carried out row by row, and so line by line. -/
theorem LineEdits.apply {text : List Char} {changes : List (List Change)} {edits : List Edit}
    (h : LineEdits text changes edits) :
    ∃ new, applyEdits? text edits = some new ∧
      Text.rows new = List.zipWith (patch 0) (Text.rows text) changes ∧
      Text.lines new = List.zipWith (patch 0) (Text.lines text) changes := by
  have hrows := fits_rows h.fits
  have happly := applyEdits?_unrows (Text.rows_ne_nil text)
    (fun row hrow => Text.newline_not_mem_rows hrow) hrows h.perm
  rw [Text.unrows_rows] at happly
  have hne : List.zipWith (patch 0) (Text.rows text) changes ≠ [] := by
    rw [← List.length_pos_iff, List.length_zipWith, ← hrows.length_eq, Nat.min_self]
    exact List.length_pos_iff.2 (Text.rows_ne_nil text)
  have hnewline : ∀ row ∈ List.zipWith (patch 0) (Text.rows text) changes, '\n' ∉ row := by
    intro row hrow
    obtain ⟨r, cs, hr, hcs, rfl⟩ := mem_zipWith hrow
    exact not_mem_patch (Text.newline_not_mem_rows hr) fun c hc => (h.within cs hcs c hc).2.1
  refine ⟨_, happly, Text.rows_unrows hne hnewline, ?_⟩
  rw [Text.lines, Text.rows_unrows hne hnewline]
  exact dropReturns_zipWith_patch h.fits fun cs hcs c hc =>
    ⟨(h.within cs hcs c hc).1, (h.within cs hcs c hc).2.2⟩

/-- Rows come back if the lines taken from them do. -/
theorem zipWith_patch_back {rs : List (List Char)} {changes changes' : List (List Change)}
    (hfits : List.Forall₂ (fun line cs => Fits 0 line.length cs) (Text.dropReturns rs) changes)
    (hfits' : List.Forall₂ (fun line cs => Fits 0 line.length cs)
      (List.zipWith (patch 0) (Text.dropReturns rs) changes) changes')
    (hback : List.zipWith (patch 0) (List.zipWith (patch 0) (Text.dropReturns rs) changes) changes' =
      Text.dropReturns rs) :
    List.zipWith (patch 0) (List.zipWith (patch 0) rs changes) changes' = rs := by
  induction rs using Text.dropReturns_induction generalizing changes changes' with
  | nil => exact hback
  | last row => exact hback
  | cons row more _ ih =>
    cases hfits with
    | @cons _ cs _ changes h hmore =>
      rw [List.zipWith_cons_cons] at hfits' hback ⊢
      cases hfits' with
      | @cons _ cs' _ changes' h' hmore' =>
        rw [List.zipWith_cons_cons, List.cons.injEq] at hback
        obtain ⟨tail, htail⟩ := Text.dropReturn_prefix row
        rw [List.zipWith_cons_cons, ih hmore hmore' hback.2, ← htail,
          patch_append (by simpa using h), patch_append (by simpa using h'), hback.1]

/-- Edits that bring back all lines bring back the text. -/
theorem LineEdits.back {text new : List Char} {changes changes' : List (List Change)}
    {edits edits' : List Edit} (h : LineEdits text changes edits)
    (hnew : applyEdits? text edits = some new) (h' : LineEdits new changes' edits')
    (hback : List.zipWith (patch 0) (Text.lines new) changes' = Text.lines text) :
    applyEdits? new edits' = some text := by
  obtain ⟨new', hnew', hrows, hlines⟩ := h.apply
  obtain rfl : new' = new := Option.some.inj (hnew'.symm.trans hnew)
  obtain ⟨text', htext', hrows', -⟩ := h'.apply
  have hfits' := h'.fits
  rw [hlines] at hfits' hback
  have hsame : Text.rows text' = Text.rows text := by
    rw [hrows', hrows]
    exact zipWith_patch_back h.fits hfits' hback
  rw [htext', ← Text.unrows_rows text', hsame, Text.unrows_rows]

end IntegerBasic.Document
