import IntegerBasic.Proofs.Renumber.RestoredLines

/-!
# Renumbering can be taken back

A sound text whose lines are numbered evenly, and whose references all name lines of it, is
renumbered back by the numbers it began with. The two renumberings change the same rows, so the
second finds the new number of every row where the first has put it; and since the new numbers
increase too, a reference finds the same row by its new number as it did by its old one.
-/

namespace IntegerBasic.Renumber

open Grammar Document

/-- References that are numbered from a first number on, in even steps. -/
def Counted (first step : Int) (refs : List Reference) : Prop :=
  ∀ (k : Nat) (r : Reference), refs[k]? = some r → (r.number : Int) = first + step * k

theorem counted_of_map {first step : Int} {refs : List Reference}
    (h : refs.map (fun r => (r.number : Int)) =
      (List.range refs.length).map fun k : Nat => first + step * (k : Int)) :
    Counted first step refs := by
  intro k r hk
  have hlt : k < refs.length := (List.getElem?_eq_some_iff.1 hk).1
  have hkth := congrArg (·[k]?) h
  rw [List.getElem?_map, hk, List.getElem?_map, List.getElem?_range hlt] at hkth
  exact Option.some.inj hkth

theorem Counted.increasing {first step : Int} {refs : List Reference}
    (h : Counted first step refs) (hstep : 0 < step) : Increasing refs := by
  rw [Increasing, List.pairwise_iff_getElem]
  intro i j hi hj hlt
  have hlow := h i _ (List.getElem?_eq_getElem hi)
  have hhigh := h j _ (List.getElem?_eq_getElem hj)
  have : step * i < step * j := Int.mul_lt_mul_of_pos_left (by omega) hstep
  omega

/-- The number that is assigned to the row of a reference. -/
theorem newNumber?_assign {refs : List Reference} (hrows : Descending refs)
    (hnonneg : ∀ r ∈ refs, 0 ≤ r.span.start.row) (first step : Int) {k : Nat} {r : Reference}
    (hk : refs[k]? = some r) :
    newNumber? (assign first step refs) r.span.start.row.toNat = some (first + step * k) := by
  induction refs generalizing first k with
  | nil => cases hk
  | cons r' refs ih =>
    obtain ⟨hbelow, hrows⟩ := List.pairwise_cons.1 hrows
    obtain ⟨hr', hnonneg⟩ := List.forall_mem_cons.1 hnonneg
    rw [assign_cons]
    cases k with
    | zero =>
      obtain rfl : r' = r := by simpa using hk
      rw [newNumber?_cons_self (by omega), Int.natCast_zero, Int.mul_zero, Int.add_zero]
    | succ k =>
      rw [List.getElem?_cons_succ] at hk
      have hmem := List.mem_of_getElem? hk
      have := hbelow r hmem
      have := hnonneg r hmem
      rw [newNumber?_cons_ne (by omega), ih hrows hnonneg _ hk, Int.natCast_succ, Int.mul_add,
        Int.mul_one]
      congr 1
      omega

structure Rows (refs : List Reference) : Prop where
  descending : Descending refs
  nonneg : ∀ r ∈ refs, 0 ≤ r.span.start.row

theorem rows_of_primaries {text : List Char} {refs : List Reference}
    (h : primaries (program text) = .ok refs) : Rows refs := by
  have hread : Read (primaryLeaves (Text.lines text) 0) refs :=
    read_of_mapM (by rw [← primaries_eq, h])
  exact ⟨descending_of_read hread, le_row_of_read hread⟩

/-- Asked by number, the table gives a counted reference the number assigned to its row. -/
theorem get?_mapping_assign {refs : List Reference} (hrows : Rows refs) (hnumbers : Increasing refs)
    (first step : Int) {k : Nat} {r : Reference} (hk : refs[k]? = some r) :
    Table.get? (mapping (assign first step refs)) r.number = some (first + step * k) := by
  rw [get?_mapping_eq_newNumber? hrows.descending hrows.nonneg hnumbers
    (by rw [map_fst_assign]) (List.mem_of_getElem? hk),
    newNumber?_assign hrows.descending hrows.nonneg first step hk]

/-- The new numbers of references are within the limit if those of lines are. -/
theorem inLimit_newReference?_assign {refs : List Reference} (hrows : Rows refs)
    (hnumbers : Increasing refs) {first step : Int}
    (hnew : ∀ row, InLimit (newNumber? (assign first step refs) row)) (l : Leaf) :
    InLimit (newReference? (assign first step refs) l) :=
  inLimit_get?_mapping hrows.descending hrows.nonneg hnumbers (by rw [map_fst_assign]) hnew _

/-- Evenly numbered lines that are numbered evenly anew can be given their numbers back. -/
theorem undoes_assign {olds news : List Reference} (hrows : Rows olds) (hrows' : Rows news)
    (hsame : news.map (·.span.start.row) = olds.map (·.span.start.row))
    {first step first' step' : Int} (hold : Counted first step olds) (hstep : 0 < step)
    (hnew : Counted first' step' news) (hstep' : 0 < step') :
    Undoes olds (assign first' step' olds) (assign first step news) := by
  -- the line and what it has become stand at one place in both lists
  have hboth : ∀ r ∈ olds, ∃ (k : Nat) (r' : Reference), olds[k]? = some r ∧ news[k]? = some r' ∧
      r'.span.start.row = r.span.start.row := by
    intro r hr
    obtain ⟨k, hk⟩ := List.mem_iff_getElem?.1 hr
    have hkth := congrArg (·[k]?) hsame
    simp only [List.getElem?_map, hk, Option.map_some, Option.map_eq_some_iff] at hkth
    obtain ⟨r', hk', hrow⟩ := hkth
    exact ⟨k, r', hk, hk', hrow⟩
  constructor
  · intro r hr
    obtain ⟨k, r', hk, hk', hrow⟩ := hboth r hr
    refine ⟨r'.number, ?_, ?_⟩
    · rw [newNumber?_assign hrows.descending hrows.nonneg _ _ hk, hnew k r' hk']
    · rw [← hrow, newNumber?_assign hrows'.descending hrows'.nonneg _ _ hk', hold k r hk]
  · intro r hr
    obtain ⟨k, r', hk, hk', -⟩ := hboth r hr
    refine ⟨r'.number, ?_, ?_⟩
    · rw [get?_mapping_assign hrows (hold.increasing hstep) _ _ hk, hnew k r' hk']
    · rw [get?_mapping_assign hrows' (hnew.increasing hstep') _ _ hk', hold k r hk]

/-- The count that would follow the numbers is no more than one step beyond the limit. -/
theorem Counted.next_le {first step : Int} {refs : List Reference} (h : Counted first step refs)
    (hlimit : ∀ r ∈ refs, r.number ≤ 32767) (hne : refs ≠ []) :
    first + step * refs.length ≤ 32767 + step := by
  obtain ⟨k, hk⟩ := Nat.exists_eq_add_of_lt (List.length_pos_iff.2 hne)
  have hlt : k < refs.length := by omega
  have hlast := h k refs[k] (List.getElem?_eq_getElem hlt)
  have := hlimit refs[k] (List.getElem_mem hlt)
  rw [hk, Nat.zero_add]
  push_cast
  rw [Int.mul_add, Int.mul_one]
  omega

theorem parameters_int {first step : Int} (hfirst : 0 ≤ first) (hstep : 0 < step) :
    parameters (.int first) (.int step) = .ok (first, step) := by
  have hno : ¬ (first < 0 ∨ step < 1) := by omega
  simp [parameters, parameter, Json.toInteger, bind, Except.bind, hno]

/-- New numbers within the limit are assigned to all lines. -/
theorem assignments_all {text : List Char} {olds : List Reference}
    (holds : primaries (program text) = .ok olds) {first step : Int} (hfirst : 0 ≤ first)
    (hstep : 0 < step) (hnext : olds ≠ [] → first + step * olds.length ≤ 32767 + step) :
    assignments text (.int first) (.int step) none = .ok (assign first step olds) := by
  unfold assignments
  rw [parameters_int hfirst hstep, holds]
  dsimp only [bind, Except.bind, Except.mapError, select]
  by_cases hempty : olds = []
  · rw [hempty]
    rfl
  · obtain ⟨k, hk⟩ := Nat.exists_eq_add_of_lt (List.length_pos_iff.2 hempty)
    have hfit : ¬ (first < 0 ∨ lineNumberLimit < first + step * (olds.length - 1 : Nat)) := by
      have := hnext hempty
      rw [hk, Nat.zero_add] at this ⊢
      push_cast at this
      rw [Int.mul_add, Int.mul_one] at this
      rw [Nat.add_sub_cancel, lineNumberLimit]
      omega
    rw [if_neg (by simpa using hempty)]
    dsimp only [guards, pure, Except.pure]
    rw [if_neg hfit]

/-- Assignments are carried out in a text whose references can be read. -/
theorem exists_editsOf {text : List Char} {refs : List Reference}
    (hrefs : secondaries (program text) = .ok refs) (assigned : List (Reference × Int)) :
    ∃ es, editsOf text assigned true = .ok es := by
  unfold editsOf
  rw [hrefs]
  dsimp only [bind, Except.bind, Except.mapError, pure, Except.pure]
  split
  · exact ⟨_, rfl⟩
  · exact ⟨_, rfl⟩

/-- Lines are renumbered if their new numbers are within the limit. -/
theorem edits_ok {text : List Char} {olds refs : List Reference}
    (holds : primaries (program text) = .ok olds) (hrefs : secondaries (program text) = .ok refs)
    {first step : Int} (hfirst : 0 ≤ first) (hstep : 0 < step)
    (hnext : olds ≠ [] → first + step * olds.length ≤ 32767 + step) :
    ∃ es, edits text (.int first) (.int step) true none = .ok es ∧
      editsOf text (assign first step olds) true = .ok es := by
  obtain ⟨es, hes⟩ := exists_editsOf hrefs (assign first step olds)
  refine ⟨es, ?_, hes⟩
  rw [edits, assignments_all holds hfirst hstep hnext]
  exact hes

/-- The references of the new text can be read if those of the old text can. -/
theorem exists_secondaries_new {text new : List Char} (sound : (program text).hasError = false)
    {assigned : List (Reference × Int)} (hnew : ∀ row, InLimit (newNumber? assigned row))
    (hlimit : ∀ l, InLimit (newReference? assigned l))
    (hlines : Text.lines new = (Text.lines text).zipIdx.map fun (s, row) =>
      patch 0 s (lineChanges assigned true row s))
    {refs : List Reference} (hrefs : secondaries (program text) = .ok refs) :
    ∃ refs', secondaries (program new) = .ok refs' := by
  have hupdated := forall₂_zipIdx_flatMap
    (fun row s => patch 0 s (lineChanges assigned true row s))
    (fun row s => lineReferences row s) (Text.lines text) 0 fun p hp =>
      updated_lineReferences hnew hlimit (sound_of_mem_lines sound hp)
  rw [← hlines, ← references_program, ← references_program] at hupdated
  rw [secondaries_eq] at hrefs
  obtain ⟨refs', hrefs', -⟩ := exists_read_of_updated hlimit hupdated (read_of_mapM hrefs)
  exact ⟨refs', by rw [secondaries_eq, mapM_of_read hrefs']⟩

/-- Two changes of every line, of which the second takes back the first. -/
theorem map_zipIdx_back {α : Type} (f g : Nat → α → α) (xs : List α) (first : Nat)
    (h : ∀ p ∈ xs.zipIdx first, g p.2 (f p.2 p.1) = p.1) :
    (((xs.zipIdx first).map fun (x, row) => f row x).zipIdx first).map (fun (x, row) => g row x) =
      xs := by
  induction xs generalizing first with
  | nil => rfl
  | cons x xs ih =>
    rw [List.zipIdx_cons] at h ⊢
    obtain ⟨hx, hxs⟩ := List.forall_mem_cons.1 h
    rw [List.map_cons, List.zipIdx_cons, List.map_cons, ih (first + 1) hxs]
    exact congrArg (· :: xs) hx

/-- The numbers of the lines of a text and the references to them, all written canonically. -/
structure WrittenCanonically (text : List Char) : Prop where
  number : ∀ l ∈ (program text).leaves, l.kind = .lineNumber → Canonical l.text
  reference : ∀ l ∈ references [] (program text).children, Canonical l.text

/-- It is enough that all leaves that may be such numbers are written canonically. -/
theorem writtenCanonically_of_leaves {text : List Char} (h : ∀ l ∈ (program text).leaves,
    l.kind = .lineNumber ∨ l.kind = .integer ∨ l.kind = .lineArgument → Canonical l.text) :
    WrittenCanonically text := by
  refine ⟨fun l hl hkind => h l hl (.inl hkind), fun l hl => h l ?_ (.inr ?_)⟩
  · exact (sublist_references [] _).subset hl
  · exact kind_of_mem_references hl

/-- The number of a line in a text that is written canonically. -/
theorem numbered_of_mem_lines {text : List Char} {olds : List Reference}
    (hread : Read (primaryLeaves (Text.lines text) 0) olds) (hcanonical : WrittenCanonically text)
    {p : List Char × Nat} (hp : p ∈ (Text.lines text).zipIdx) {l : Leaf}
    (hl : primaryLeaf? p.2 p.1 = some l) :
    Canonical l.text ∧
      ∃ r ∈ olds, r.span.start.row = p.2 ∧ r.number = Numeral.digitsValue l.text := by
  have hmem : l ∈ primaryLeaves (Text.lines text) 0 := List.mem_filterMap.2 ⟨p, hp, hl⟩
  obtain ⟨r, hr, hread⟩ := exists_mem_of_forall₂ hread.flip l hmem
  obtain ⟨hnumber, hspan, -⟩ := ofLeaf_ok hread
  rw [← filter_program_leaves, List.mem_filter] at hmem
  refine ⟨hcanonical.number l hmem.1 (by simpa using hmem.2), r, hr, ?_, hnumber⟩
  rw [hspan, (inRow_primaryLeaf? hl).1]

/-- A reference in a text that is written canonically. -/
theorem names_of_mem_lines {text : List Char} {olds refs : List Reference}
    (hrefs : secondaries (program text) = .ok refs)
    (hnamed : ∀ ref ∈ refs, ∃ r ∈ olds, r.number = ref.number)
    (hcanonical : WrittenCanonically text) {p : List Char × Nat}
    (hp : p ∈ (Text.lines text).zipIdx) {l : Leaf} (hl : l ∈ lineReferences p.2 p.1) :
    Names olds l := by
  have hmem : l ∈ references [] (program text).children := by
    rw [references_program]
    exact List.mem_flatMap.2 ⟨p, hp, hl⟩
  rw [secondaries_eq] at hrefs
  obtain ⟨ref, href, hread⟩ := exists_mem_of_forall₂ (read_of_mapM hrefs).flip l hmem
  obtain ⟨r, hr, hnumber⟩ := hnamed ref href
  exact ⟨hcanonical.reference l hmem, r, hr, by rw [hnumber, (ofLeaf_ok hread).1]⟩

/-- The old text comes back if the second assignments undo the first. -/
theorem applyEdits?_back {text new : List Char} (sound : (program text).hasError = false)
    {olds news refs : List Reference} (holds : primaries (program text) = .ok olds)
    (hnews : primaries (program new) = .ok news) (hrefs : secondaries (program text) = .ok refs)
    (hnamed : ∀ ref ∈ refs, ∃ r ∈ olds, r.number = ref.number)
    (hcanonical : WrittenCanonically text) {assigned assigned' : List (Reference × Int)}
    (hsub : (assigned.map (·.1)).Sublist olds) (hsub' : (assigned'.map (·.1)).Sublist news)
    (undoes : Undoes olds assigned assigned') (hnew : ∀ row, InLimit (newNumber? assigned row))
    (hlimit : ∀ l, InLimit (newReference? assigned l))
    (hlimit' : ∀ l, InLimit (newReference? assigned' l)) {es es' : List Edit}
    (hes : editsOf text assigned true = .ok es) (happly : applyEdits? text es = some new)
    (hlines : Text.lines new = (Text.lines text).zipIdx.map fun (s, row) =>
      patch 0 s (lineChanges assigned true row s))
    (hes' : editsOf new assigned' true = .ok es') : applyEdits? new es' = some text := by
  have hread : Read (primaryLeaves (Text.lines text) 0) olds :=
    read_of_mapM (by rw [← primaries_eq, holds])
  have hread' : Read (primaryLeaves (Text.lines new) 0) news :=
    read_of_mapM (by rw [← primaries_eq, hnews])
  refine (lineEdits_of_editsOf hread hsub hes).back happly
    (lineEdits_of_editsOf hread' hsub' hes') ?_
  rw [zipWith_zipIdx, hlines]
  exact map_zipIdx_back (fun row s => patch 0 s (lineChanges assigned true row s))
    (fun row s => patch 0 s (lineChanges assigned' true row s)) (Text.lines text) 0
    fun p hp => patch_back undoes hnew hlimit hlimit' (sound_of_mem_lines sound hp)
      (fun l hl => numbered_of_mem_lines hread hcanonical hp hl)
      (fun l hl => names_of_mem_lines hrefs hnamed hcanonical hp hl)

/-- What renumbering a whole text comes to. -/
theorem exists_evenly_numbered {text : List Char} {start increment : Json} {updateReferences : Bool}
    {es : List Edit} (h : edits text start increment updateReferences none = .ok es) :
    ∃ first step olds new news, 0 < step ∧ primaries (program text) = .ok olds ∧
      editsOf text (assign first step olds) updateReferences = .ok es ∧
      (∀ row, InLimit (newNumber? (assign first step olds) row)) ∧
      applyEdits? text es = some new ∧
      (Text.lines new = (Text.lines text).zipIdx.map fun (s, row) =>
        patch 0 s (lineChanges (assign first step olds) updateReferences row s)) ∧
      primaries (program new) = .ok news ∧
      news.map (·.span.start.row) = olds.map (·.span.start.row) ∧ Counted first step news := by
  obtain ⟨first, step, olds, assigned, new, news, hparameters, holds, rfl, hes, -, hnew, happly,
    hlines, hnews, hsame, hrecount⟩ := exists_recounted h
  have hall : ∀ refs : List Reference, refs.filter (isSelected none) = refs :=
    fun refs => List.filter_eq_self.2 fun _ _ => rfl
  have hlength : news.length = olds.length := by simpa using congrArg List.length hsame
  have hcount := (filter_of_recount hsame hrecount).1
  rw [hall, hall, ← hlength] at hcount
  rw [hall] at hes hnew hlines
  exact ⟨first, step, olds, new, news, (parameters_ok hparameters).2, holds, hes, hnew, happly,
    hlines, hnews, hsame, counted_of_map hcount⟩

/-- Renumbering can be taken back: if the lines are numbered in even steps, all references name
lines, and all numbers are written canonically, then the new text can be renumbered with the old
first number and step, and that gives back the old text. -/
theorem renumber_back {text : List Char} (sound : (program text).hasError = false)
    {olds : List Reference} (holds : primaries (program text) = .ok olds) {first step : Nat}
    (hstep : 1 ≤ step)
    (hcounted : olds.map (·.number) = (List.range olds.length).map fun k => first + step * k)
    (hlimit : ∀ r ∈ olds, r.number ≤ 32767) {refs : List Reference}
    (hrefs : secondaries (program text) = .ok refs)
    (hnamed : ∀ ref ∈ refs, ∃ r ∈ olds, r.number = ref.number)
    (hcanonical : WrittenCanonically text) {start increment : Json} {es : List Edit}
    (h : edits text start increment true none = .ok es) :
    ∃ new es', applyEdits? text es = some new ∧
      edits new (.int first) (.int step) true none = .ok es' ∧
      applyEdits? new es' = some text := by
  obtain ⟨first', step', olds', new, news, hstep', holds', hes, hnew, happly, hlines, hnews, hsame,
    hnewCounted⟩ := exists_evenly_numbered h
  obtain rfl : olds = olds' := Except.ok.inj (holds.symm.trans holds')
  have hold : Counted first step olds := counted_of_map (by
    simpa [Function.comp_def] using congrArg (List.map Int.ofNat) hcounted)
  have hpos : (0 : Int) < step := by omega
  have hrows := rows_of_primaries holds
  have hrows' := rows_of_primaries hnews
  have hreference := inLimit_newReference?_assign hrows (hold.increasing hpos) hnew
  -- the old numbers fit, so the second renumbering succeeds
  obtain ⟨refs', hrefs'⟩ := exists_secondaries_new sound hnew hreference hlines hrefs
  have hlength : news.length = olds.length := by simpa using congrArg List.length hsame
  have hnext : news ≠ [] → (first : Int) + step * news.length ≤ 32767 + step := by
    intro hne
    rw [hlength]
    exact hold.next_le hlimit (List.ne_nil_of_length_pos (hlength ▸ List.length_pos_iff.2 hne))
  obtain ⟨es', hes', hesOf⟩ := edits_ok hnews hrefs' (Int.natCast_nonneg first) hpos hnext
  have hreference' := inLimit_newReference?_assign hrows' (hnewCounted.increasing hstep')
    (inLimit_newNumber? (Int.natCast_nonneg first) hpos hnext)
  exact ⟨new, es', happly, hes', applyEdits?_back sound holds hnews hrefs hnamed hcanonical
    (by rw [map_fst_assign]) (by rw [map_fst_assign])
    (undoes_assign hrows hrows' hsame hold hpos hnewCounted hstep') hnew hreference hreference' hes
    happly hlines hesOf⟩

/-- The old number of the second line is the new number of the first, on the way back too. -/
theorem renumber_back_crossing :
    ∃ new es', applyEdits? "10 GOTO 20\n20 LIST 10".toList
        [⟨⟨⟨0, 0⟩, ⟨0, 3⟩⟩, "20 ".toList⟩, ⟨⟨⟨1, 0⟩, ⟨1, 3⟩⟩, "1000 ".toList⟩,
          ⟨⟨⟨0, 8⟩, ⟨0, 10⟩⟩, "1000".toList⟩, ⟨⟨⟨1, 8⟩, ⟨1, 10⟩⟩, "20".toList⟩] = some new ∧
      edits new (.int 10) (.int 10) true none = .ok es' ∧
      applyEdits? new es' = some "10 GOTO 20\n20 LIST 10".toList :=
  @renumber_back _ (by decide +kernel)
    [⟨10, ⟨⟨0, 0⟩, ⟨0, 3⟩⟩, 0, 1⟩, ⟨20, ⟨⟨1, 0⟩, ⟨1, 3⟩⟩, 0, 1⟩] (by decide +kernel) 10 10
    (by decide) (by decide) (by decide)
    [⟨20, ⟨⟨0, 8⟩, ⟨0, 10⟩⟩, 0, 0⟩, ⟨10, ⟨⟨1, 8⟩, ⟨1, 10⟩⟩, 0, 0⟩] (by decide +kernel)
    (by decide) (writtenCanonically_of_leaves (by decide +kernel)) (.int 20) (.int 980) _
    (by decide +kernel)

end IntegerBasic.Renumber
