import Mathlib.Data.List.Find
import IntegerBasic.Proofs.Renumber.LineOrder
import IntegerBasic.Proofs.Renumber.RewrittenLines

/-!
# Renumbering keeps the flow of control

The references of the new text are those of the old text, one for one and in order, since every
line is read as before. A reference to a line of the old text refers to the same line of the new
text: the table of new numbers is asked by number, the lines are given theirs by row, and the two
agree where numbers increase from row to row.
-/

namespace IntegerBasic.Renumber

open Grammar Document

/-- The table of new numbers, asked by number, if no two lines have the same. -/
theorem get?_mapping {assigned : List (Reference × Int)}
    (hnumbers : (assigned.map (·.1)).Pairwise fun r r' => r.number < r'.number) (k : Nat) :
    Table.get? (mapping assigned) k = (assigned.find? (·.1.number == k)).map (·.2) := by
  rw [get?_mapping_reverse]
  congr 1
  induction assigned with
  | nil => rfl
  | cons p assigned ih =>
    obtain ⟨hfirst, hmore⟩ := List.pairwise_cons.1 hnumbers
    rw [List.reverse_cons, List.find?_append, ih hmore]
    by_cases h : p.1.number = k
    · -- the numbers behind are greater, so this entry is the last for its number
      have hnone : assigned.find? (·.1.number == k) = none := by
        rw [List.find?_eq_none]
        intro p' hp'
        have hlt : p.1.number < p'.1.number := hfirst p'.1 (List.mem_map_of_mem hp')
        simp only [beq_iff_eq]
        omega
      simp [hnone, h]
    · simp [h]

/-- Asked by number or by row, a line of the old text is given the same new number. -/
theorem get?_mapping_eq_newNumber? {olds : List Reference} (hrows : Descending olds)
    (hnonneg : ∀ r ∈ olds, 0 ≤ r.span.start.row) (hnumbers : Increasing olds)
    {assigned : List (Reference × Int)} (hsub : (assigned.map (·.1)).Sublist olds) {r : Reference}
    (hr : r ∈ olds) :
    Table.get? (mapping assigned) r.number = newNumber? assigned r.span.start.row.toNat := by
  rw [get?_mapping (hnumbers.sublist hsub), newNumber?]
  refine congrArg (Option.map _) (List.find?_congr fun p hp => ?_)
  have hp : p.1 ∈ olds := hsub.subset (List.mem_map_of_mem hp)
  have := hnonneg r hr
  rw [Bool.eq_iff_iff, beq_iff_eq, beq_iff_eq]
  rcases trichotomy_of_mem hrows hnumbers hp hr with h | h | h
  · omega
  · rw [h]
    omega
  · omega

/-- The numbers in the table are within the limit. -/
theorem inLimit_get?_mapping {olds : List Reference} (hrows : Descending olds)
    (hnonneg : ∀ r ∈ olds, 0 ≤ r.span.start.row) (hnumbers : Increasing olds)
    {assigned : List (Reference × Int)} (hsub : (assigned.map (·.1)).Sublist olds)
    (hlimit : ∀ row, InLimit (newNumber? assigned row)) (k : Nat) :
    InLimit (Table.get? (mapping assigned) k) := by
  intro n hn
  have hfind := hn
  rw [get?_mapping (hnumbers.sublist hsub)] at hfind
  obtain ⟨p, hp, -⟩ := Option.map_eq_some_iff.1 hfind
  have hnumber : p.1.number = k := by simpa using List.find?_some hp
  have hmem : p.1 ∈ olds := hsub.subset (List.mem_map_of_mem (List.mem_of_find?_eq_some hp))
  rw [← hnumber, get?_mapping_eq_newNumber? hrows hnonneg hnumbers hsub hmem] at hn
  exact hlimit _ n hn

/-- The new number of a reference, if the line it refers to is given another. -/
def newReference? (assigned : List (Reference × Int)) (l : Leaf) : Option Int :=
  Table.get? (mapping assigned) (Numeral.digitsValue l.text)

/-- Leaves in the same row, of which the second has the new text of the first. -/
def Updated (assigned : List (Reference × Int)) (l l' : Leaf) : Prop :=
  l'.text = newText (rewriting (newReference? assigned)) l ∧ l'.span.start.row = l.span.start.row

/-- The references of a line with its changes. -/
theorem updated_lineReferences {assigned : List (Reference × Int)}
    (hrows : ∀ row, InLimit (newNumber? assigned row))
    (hlimit : ∀ l, InLimit (newReference? assigned l)) {row : Nat} {s : List Char}
    (sound : Text.isBlankText s = false → (line row s).hasError = false) :
    List.Forall₂ (Updated assigned) (lineReferences row s)
      (lineReferences row (patch 0 s (lineChanges assigned true row s))) := by
  cases hs : Lexeme.lineNumber s with
  | none =>
    rw [patch_lineChanges_of_none hs, lineReferences_of_none hs]
    exact .nil
  | some pair =>
    obtain ⟨number, rest⟩ := pair
    have hblank : Text.isBlankText s = false := by
      rw [Bool.eq_false_iff]
      intro hblank
      rw [lineNumber_of_isBlankText hblank] at hs
      cases hs
    have htexts := references_rewritten hs (sound hblank) hlimit
      (lineNumber_patch true hs (hrows row)) rfl
    obtain ⟨hlength, htext⟩ := List.forall₂_iff_zip.1 htexts
    refine List.forall₂_iff_zip.2 ⟨hlength, fun {l l'} hmem => ⟨htext hmem, ?_⟩⟩
    obtain ⟨hl, hl'⟩ := List.of_mem_zip hmem
    rw [(inRow_lineReferences row _ l' hl').1, (inRow_lineReferences row s l hl).1]

theorem forall₂_zipIdx_flatMap {R : Leaf → Leaf → Prop} (change : Nat → List Char → List Char)
    (leaves : Nat → List Char → List Leaf) (lines : List (List Char)) (first : Nat)
    (h : ∀ p ∈ lines.zipIdx first,
      List.Forall₂ R (leaves p.2 p.1) (leaves p.2 (change p.2 p.1))) :
    List.Forall₂ R ((lines.zipIdx first).flatMap fun (s, row) => leaves row s)
      ((((lines.zipIdx first).map fun (s, row) => change row s).zipIdx first).flatMap
        fun (s, row) => leaves row s) := by
  induction lines generalizing first with
  | nil => exact .nil
  | cons s lines ih =>
    rw [List.zipIdx_cons] at h ⊢
    rw [List.map_cons, List.zipIdx_cons, List.flatMap_cons, List.flatMap_cons]
    exact List.rel_append (h (s, first) List.mem_cons_self)
      (ih (first + 1) fun p hp => h p (List.mem_cons_of_mem _ hp))

/-- The lines of a sound text are sound, but for the blank ones, which are not read. -/
theorem sound_of_mem_lines {text : List Char} (sound : (program text).hasError = false)
    {p : List Char × Nat} (hp : p ∈ (Text.lines text).zipIdx)
    (hblank : Text.isBlankText p.1 = false) : (line p.2 p.1).hasError = false := by
  have hmem : line p.2 p.1 ∈ (program text).children :=
    List.mem_map.2 ⟨(p.2, p.1),
      List.mem_filter.2 ⟨List.mem_map.2 ⟨p, hp, rfl⟩, by simpa using hblank⟩, rfl⟩
  exact hasError_of_mem sound hmem

/-- A reference of the old text and one of the new: in the same row, and the second has the number
that the table gives for the first, if it has one. -/
def Follows (assigned : List (Reference × Int)) (ref ref' : Reference) : Prop :=
  ref'.span.start.row = ref.span.start.row ∧
    (ref'.number : Int) = (Table.get? (mapping assigned) ref.number).getD ref.number

/-- A leaf that can be read can be read with its new text. -/
theorem exists_follows {assigned : List (Reference × Int)}
    (hlimit : ∀ l, InLimit (newReference? assigned l)) {l l' : Leaf} {ref : Reference}
    (h : Updated assigned l l') (hl : Reference.ofLeaf l = .ok ref) :
    ∃ ref', Reference.ofLeaf l' = .ok ref' ∧ Follows assigned ref ref' := by
  obtain ⟨htext, hrow⟩ := h
  obtain ⟨hnumber, hspan, -⟩ := ofLeaf_ok hl
  have hnew : Table.get? (mapping assigned) ref.number = newReference? assigned l := by
    rw [hnumber, newReference?]
  cases hn : newReference? assigned l with
  | none =>
    rw [newText, rewriting, hn] at htext
    have hread : Reference.ofLeaf l' = .ok { ref with span := l'.span } := by
      unfold Reference.ofLeaf at hl ⊢
      rw [show l'.text = l.text from htext]
      cases hvalue : Numeral.readToken l.text with
      | error e =>
        rw [hvalue] at hl
        cases hl
      | ok n =>
        rw [hvalue] at hl
        cases hl
        rfl
    refine ⟨_, hread, hrow.trans (by rw [hspan]), ?_⟩
    rw [hnew, hn]
    rfl
  | some n =>
    have hin := hlimit l
    rw [hn] at hin
    obtain ⟨m, rfl, hm⟩ := exists_nat_of_inLimit hin
    rw [newText, rewriting, hn] at htext
    obtain ⟨ref', hread⟩ := exists_ofLeaf_rewritten l.text hm l'.span
    obtain ⟨hnumber', hspan', -⟩ := ofLeaf_ok hread
    refine ⟨ref', ?_, ?_, ?_⟩
    · rw [← hread, ← show l'.text = rewritten l.text m from htext]
      rfl
    · rw [hspan', hspan]
      exact hrow
    · rw [hnew, hn, hnumber']
      exact congrArg Int.ofNat (digitsValue_rewritten l.text m)

theorem exists_read_of_updated {assigned : List (Reference × Int)}
    (hlimit : ∀ l, InLimit (newReference? assigned l)) {leaves leaves' : List Leaf}
    {refs : List Reference} (h : List.Forall₂ (Updated assigned) leaves leaves')
    (hread : Read leaves refs) :
    ∃ refs', Read leaves' refs' ∧ List.Forall₂ (Follows assigned) refs refs' := by
  induction h generalizing refs with
  | nil =>
    cases hread
    exact ⟨[], .nil, .nil⟩
  | cons hl _ ih =>
    cases hread with
    | cons hr hmore =>
      obtain ⟨ref', href', hfollows⟩ := exists_follows hlimit hl hr
      obtain ⟨refs', hrefs', hmore'⟩ := ih hmore
      exact ⟨ref' :: refs', .cons href' hrefs', .cons hfollows hmore'⟩

/-- The references of a text are read before any of its edits is found. -/
theorem exists_secondaries {text : List Char} {assigned : List (Reference × Int)} {es : List Edit}
    (h : editsOf text assigned true = .ok es) (hne : es ≠ []) :
    ∃ refs, secondaries (program text) = .ok refs := by
  unfold editsOf at h
  rcases assigned with _ | ⟨first, assigned⟩
  · cases h
    exact absurd rfl hne
  · cases hrefs : secondaries (program text) with
    | error e =>
      rw [hrefs] at h
      cases h
    | ok refs => exact ⟨refs, rfl⟩

/-- Lines of the old and the new text in the same row: what number the new one has. -/
theorem number_of_same_row {olds news : List Reference} (hrows : Descending olds)
    (hnumbers : Increasing olds) {assigned : List (Reference × Int)}
    (hplaces : news.map Reference.place = olds.map fun r =>
      (r.span.start.row, (newNumber? assigned r.span.start.row.toNat).getD r.number))
    {r r' : Reference} (hr : r ∈ olds) (hr' : r' ∈ news)
    (hrow : r.span.start.row = r'.span.start.row) :
    (r'.number : Int) = (newNumber? assigned r.span.start.row.toNat).getD r.number := by
  have hmem : r'.place ∈ news.map Reference.place := List.mem_map_of_mem hr'
  rw [hplaces] at hmem
  obtain ⟨r₀, hr₀, heq⟩ := List.mem_map.1 hmem
  obtain ⟨hrow₀, hnumber⟩ := Prod.mk.inj heq
  rcases trichotomy_of_mem hrows hnumbers hr₀ hr with hlt | rfl | hlt
  · omega
  · exact hnumber.symm
  · omega

/-- Renumbering with the references keeps the flow of control: the references of the new text are
those of the old, one for one and in order, and one that named the line in some row names the
line in the same row. -/
theorem references_follow_lines {text : List Char} (sound : (program text).hasError = false)
    {olds : List Reference} (holds : primaries (program text) = .ok olds)
    (hnumbers : Increasing olds) (hlimit : ∀ r ∈ olds, r.number ≤ 32767)
    (hguards : GuardsNumbered text) {start step : Json} {selection : Option Selection}
    {es : List Edit} (h : edits text start step true selection = .ok es) :
    ∃ new news, applyEdits? text es = some new ∧ primaries (program new) = .ok news ∧
      news.map (·.span.start.row) = olds.map (·.span.start.row) ∧
      (es ≠ [] → ∃ refs, secondaries (program text) = .ok refs) ∧
      ∀ refs, secondaries (program text) = .ok refs →
        ∃ refs', secondaries (program new) = .ok refs' ∧
          List.Forall₂ (fun ref ref' => ref'.span.start.row = ref.span.start.row ∧
            ∀ r ∈ olds, ∀ r' ∈ news, r.span.start.row = r'.span.start.row →
              ref.number = r.number → ref'.number = r'.number) refs refs' := by
  obtain ⟨first, increment, assigned, new, news, -, hassigned, hnew, happly, hlines, hnews, hsame,
    -⟩ := exists_renumbered holds hnumbers hlimit hguards h
  have hread : Read (primaryLeaves (Text.lines text) 0) olds :=
    read_of_mapM (by rw [← primaries_eq, holds])
  have hrows := descending_of_read hread
  have hnonneg : ∀ r ∈ olds, 0 ≤ r.span.start.row := le_row_of_read hread
  have hsub : (assigned.map (·.1)).Sublist olds := by
    rw [hassigned, map_fst_assign]
    exact List.filter_sublist
  have hreferences : ∀ l, InLimit (newReference? assigned l) := fun l =>
    inLimit_get?_mapping hrows hnonneg hnumbers hsub hnew _
  obtain ⟨news', hread', hplaces⟩ := read_patch true hnew hread
  have hnews' : news = news' := by
    rw [primaries_eq, hlines, mapM_of_read hread'] at hnews
    exact (Except.ok.inj hnews).symm
  refine ⟨new, news, happly, hnews, hsame, ?_, fun refs hrefs => ?_⟩
  · unfold edits at h
    obtain ⟨assigned', -, h⟩ := except_bind_ok h
    exact exists_secondaries h
  · have hupdated := forall₂_zipIdx_flatMap
      (fun row s => patch 0 s (lineChanges assigned true row s))
      (fun row s => lineReferences row s) (Text.lines text) 0 fun p hp =>
        updated_lineReferences hnew hreferences (sound_of_mem_lines sound hp)
    rw [← hlines, ← references_program, ← references_program] at hupdated
    rw [secondaries_eq] at hrefs
    obtain ⟨refs', hrefs', hfollow⟩ :=
      exists_read_of_updated hreferences hupdated (read_of_mapM hrefs)
    refine ⟨refs', by rw [secondaries_eq, mapM_of_read hrefs'],
      hfollow.imp fun ref ref' hboth => ?_⟩
    refine ⟨hboth.1, fun r hr r' hr' hrow hnumber => ?_⟩
    have hvalue := hboth.2
    rw [hnumber, get?_mapping_eq_newNumber? hrows hnonneg hnumbers hsub hr,
      ← number_of_same_row hrows hnumbers hplaces hr (hnews' ▸ hr') hrow] at hvalue
    exact Int.ofNat_inj.1 hvalue

/-- The old number of the first line is the new number of the second. -/
theorem references_follow_lines_crossing :
    ∃ new news, applyEdits? "10 IF A THEN 200:GOTO 10\n200 LIST 10,200".toList
        [⟨⟨⟨0, 0⟩, ⟨0, 3⟩⟩, "5 ".toList⟩, ⟨⟨⟨1, 0⟩, ⟨1, 4⟩⟩, "10 ".toList⟩,
          ⟨⟨⟨0, 13⟩, ⟨0, 16⟩⟩, "10".toList⟩, ⟨⟨⟨0, 22⟩, ⟨0, 24⟩⟩, "5".toList⟩,
          ⟨⟨⟨1, 9⟩, ⟨1, 11⟩⟩, "5".toList⟩, ⟨⟨⟨1, 12⟩, ⟨1, 15⟩⟩, "10".toList⟩] = some new ∧
      primaries (program new) = .ok news ∧ news.map (·.span.start.row) = [0, 1] ∧
      (∃ refs, secondaries (program "10 IF A THEN 200:GOTO 10\n200 LIST 10,200".toList) =
        .ok refs) ∧
      ∀ refs, secondaries (program "10 IF A THEN 200:GOTO 10\n200 LIST 10,200".toList) =
          .ok refs →
        ∃ refs', secondaries (program new) = .ok refs' ∧
          List.Forall₂ (fun ref ref' => ref'.span.start.row = ref.span.start.row ∧
            ∀ r ∈ ([⟨10, ⟨⟨0, 0⟩, ⟨0, 3⟩⟩, 0, 1⟩, ⟨200, ⟨⟨1, 0⟩, ⟨1, 4⟩⟩, 0, 1⟩] : List Reference),
              ∀ r' ∈ news, r.span.start.row = r'.span.start.row →
                ref.number = r.number → ref'.number = r'.number) refs refs' := by
  obtain ⟨new, news, happly, hnews, hrows, hrefs, hfollow⟩ := @references_follow_lines
    "10 IF A THEN 200:GOTO 10\n200 LIST 10,200".toList (by decide +kernel)
    [⟨10, ⟨⟨0, 0⟩, ⟨0, 3⟩⟩, 0, 1⟩, ⟨200, ⟨⟨1, 0⟩, ⟨1, 4⟩⟩, 0, 1⟩]
    (by decide +kernel) (by unfold Increasing; decide) (by decide) (by decide +kernel)
    (.int 5) (.int 5) none
    [⟨⟨⟨0, 0⟩, ⟨0, 3⟩⟩, "5 ".toList⟩, ⟨⟨⟨1, 0⟩, ⟨1, 4⟩⟩, "10 ".toList⟩,
      ⟨⟨⟨0, 13⟩, ⟨0, 16⟩⟩, "10".toList⟩, ⟨⟨⟨0, 22⟩, ⟨0, 24⟩⟩, "5".toList⟩,
      ⟨⟨⟨1, 9⟩, ⟨1, 11⟩⟩, "5".toList⟩, ⟨⟨⟨1, 12⟩, ⟨1, 15⟩⟩, "10".toList⟩] (by decide +kernel)
  exact ⟨new, news, happly, hnews, hrows, hrefs (by simp), hfollow⟩

end IntegerBasic.Renumber
