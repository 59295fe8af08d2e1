import Mathlib.Data.List.Perm.Basic
import IntegerBasic.Proofs.Document.Patches
import IntegerBasic.Proofs.Renumber.Primaries

/-!
# Renumbering line by line

The edits of a renumbering change each line on its own: first its number, if it is given a new one,
and behind it the references to lines that are. The changes of a line do not overlap, so the new
text has the old lines, each with its changes.
-/

namespace IntegerBasic.Renumber

open Grammar Document

/-- A number in the place of a text, with as many spaces around it as there were blanks. -/
def rewritten (text : List Char) (n : Int) : List Char :=
  List.replicate (text.length - (Text.trimLeft text).length) ' ' ++ Numeral.decimalInt n ++
    List.replicate (text.length - (Text.trimRight text).length) ' '

/-- In the table of new numbers the last assignment of an old one counts. -/
theorem get?_mapping_reverse (assigned : List (Reference × Int)) (k : Nat) :
    Table.get? (mapping assigned) k = (assigned.reverse.find? (·.1.number == k)).map (·.2) := by
  rw [mapping, List.foldl_eq_foldr_reverse]
  induction assigned.reverse with
  | nil => rfl
  | cons p assigned ih =>
    rw [List.foldr_cons, Table.get?_put, ih]
    by_cases h : p.1.number = k
    · rw [if_pos h, List.find?_cons_of_pos (by simpa using h)]
      rfl
    · rw [if_neg h, List.find?_cons_of_neg (by simpa using h)]

def changeOf (l : Leaf) (n : Int) : Change :=
  ⟨l.span.start.col, l.span.stop.col, rewritten l.text n⟩

def InRow (row : Nat) (l : Leaf) : Prop := l.span.start.row = row ∧ l.span.stop.row = row

theorem ofLeaf_ok {l : Leaf} {r : Reference} (h : Reference.ofLeaf l = .ok r) :
    r.number = Numeral.digitsValue l.text ∧ r.span = l.span ∧
      ∀ n, r.edit n = ⟨.ofSpan l.span, rewritten l.text n⟩ := by
  unfold Reference.ofLeaf Numeral.readToken at h
  dsimp only at h
  split at h
  · cases h
  · cases h
    exact ⟨rfl, rfl, fun n => rfl⟩

theorem edit_changeOf {l : Leaf} {row : Nat} (hrow : InRow row l) (n : Int) :
    (changeOf l n).edit row = ⟨.ofSpan l.span, rewritten l.text n⟩ := by
  simp [changeOf, Change.edit, Range.ofSpan, Position.ofPoint, hrow.1, hrow.2]

theorem edit_eq {l : Leaf} {r : Reference} {row : Nat} (h : Reference.ofLeaf l = .ok r)
    (hrow : InRow row l) (n : Int) : r.edit n = (changeOf l n).edit row := by
  rw [(ofLeaf_ok h).2.2 n, edit_changeOf hrow]

/-- The new number that is assigned in a row. -/
def newNumber? (assigned : List (Reference × Int)) (row : Nat) : Option Int :=
  (assigned.find? fun (r, _) => r.span.start.row == row).map (·.2)

def numberChanges (new : Option Int) (row : Nat) (s : List Char) : List Change :=
  match primaryLeaf? row s, new with
  | some l, some n => [changeOf l n]
  | _, _ => []

def referenceChanges (table : List (Nat × Int)) (row : Nat) (s : List Char) : List Change :=
  (lineReferences row s).filterMap fun l =>
    (Table.get? table (Numeral.digitsValue l.text)).map (changeOf l)

def laterChanges (assigned : List (Reference × Int)) (updateReferences : Bool) (row : Nat)
    (s : List Char) : List Change :=
  if updateReferences then referenceChanges (mapping assigned) row s else []

def lineChanges (assigned : List (Reference × Int)) (updateReferences : Bool) (row : Nat)
    (s : List Char) : List Change :=
  numberChanges (newNumber? assigned row) row s ++ laterChanges assigned updateReferences row s

/-- The edits of all rows, given what is changed in each line. -/
theorem rowEdits_zipIdx (changes : Nat → List Char → List Change) (lines : List (List Char))
    (first : Nat) :
    rowEdits first ((lines.zipIdx first).map fun (s, row) => changes row s) =
      (lines.zipIdx first).flatMap fun (s, row) => (changes row s).map (·.edit row) := by
  induction lines generalizing first with
  | nil => rfl
  | cons s lines ih =>
    rw [List.zipIdx_cons, List.map_cons, rowEdits, ih]
    rfl

def Read (leaves : List Leaf) (refs : List Reference) : Prop :=
  List.Forall₂ (fun l r => Reference.ofLeaf l = .ok r) leaves refs

theorem read_of_mapM {leaves : List Leaf} {refs : List Reference}
    (h : leaves.mapM Reference.ofLeaf = .ok refs) : Read leaves refs := by
  induction leaves generalizing refs with
  | nil =>
    cases h
    exact .nil
  | cons l leaves ih =>
    rw [List.mapM_cons] at h
    cases hl : Reference.ofLeaf l with
    | error e =>
      rw [hl] at h
      cases h
    | ok r =>
      cases hmore : leaves.mapM Reference.ofLeaf with
      | error e =>
        rw [hl, hmore] at h
        cases h
      | ok refs' =>
        rw [hl, hmore] at h
        cases h
        exact .cons hl (ih hmore)

theorem mapM_of_read {leaves : List Leaf} {refs : List Reference} (h : Read leaves refs) :
    leaves.mapM Reference.ofLeaf = .ok refs := by
  induction h with
  | nil => rfl
  | cons hl _ ih =>
    rw [List.mapM_cons, hl, ih]
    rfl

theorem inRow_primaryLeaf? {row : Nat} {s : List Char} {l : Leaf}
    (h : primaryLeaf? row s = some l) : InRow row l := by
  obtain ⟨⟨number, rest⟩, -, rfl⟩ := Option.map_eq_some_iff.1 h
  exact ⟨rfl, rfl⟩

theorem primaryLeaves_cons (s : List Char) (lines : List (List Char)) (first : Nat) :
    primaryLeaves (s :: lines) first =
      (primaryLeaf? first s).toList ++ primaryLeaves lines (first + 1) := by
  rw [primaryLeaves, List.zipIdx_cons, List.filterMap_cons]
  dsimp only
  cases primaryLeaf? first s <;> rfl

/-- The primary references from a row on lie in this row and behind it. -/
theorem le_row_of_read {lines : List (List Char)} {first : Nat} {refs : List Reference}
    (h : Read (primaryLeaves lines first) refs) :
    ∀ r ∈ refs, (first : Int) ≤ r.span.start.row := by
  induction lines generalizing first refs with
  | nil =>
    cases h
    simp
  | cons s lines ih =>
    rw [primaryLeaves_cons] at h
    have hlater : ∀ {refs}, Read (primaryLeaves lines (first + 1)) refs →
        ∀ r ∈ refs, (first : Int) ≤ r.span.start.row := by
      intro refs h r hr
      have := ih h r hr
      omega
    cases hleaf : primaryLeaf? first s with
    | none =>
      rw [hleaf] at h
      exact hlater h
    | some l =>
      rw [hleaf] at h
      cases h with
      | @cons _ r _ refs hl hmore =>
        intro r' hr'
        rcases List.mem_cons.1 hr' with rfl | hr'
        · have hrow : r'.span.start.row = first := by
            rw [(ofLeaf_ok hl).2.1, (inRow_primaryLeaf? hleaf).1]
          exact Int.le_of_eq hrow.symm
        · exact hlater hmore r' hr'

theorem newNumber?_eq_none {assigned : List (Reference × Int)} {row : Nat}
    (h : ∀ p ∈ assigned, (row : Int) < p.1.span.start.row) : newNumber? assigned row = none := by
  rw [newNumber?, Option.map_eq_none_iff, List.find?_eq_none]
  intro p hp
  have := h p hp
  simp only [beq_iff_eq]
  omega

theorem numberChanges_of_none {new : Option Int} {row : Nat} {s : List Char}
    (h : primaryLeaf? row s = none) : numberChanges new row s = [] := by
  unfold numberChanges
  rw [h]

theorem numberChanges_none (row : Nat) (s : List Char) : numberChanges none row s = [] := by
  unfold numberChanges
  cases primaryLeaf? row s <;> rfl

theorem numberChanges_some {n : Int} {row : Nat} {s : List Char} {l : Leaf}
    (h : primaryLeaf? row s = some l) : numberChanges (some n) row s = [changeOf l n] := by
  unfold numberChanges
  rw [h]

/-- The changes of the numbers carry out the assignments. -/
theorem rowEdits_numberChanges {lines : List (List Char)} {first : Nat}
    {refs : List Reference} (hread : Read (primaryLeaves lines first) refs)
    {assigned : List (Reference × Int)} (hsub : (assigned.map (·.1)).Sublist refs)
    (new : Nat → Option Int) (hnew : ∀ row, first ≤ row → new row = newNumber? assigned row) :
    rowEdits first ((lines.zipIdx first).map fun (s, row) => numberChanges (new row) row s) =
      assigned.map fun (r, n) => r.edit n := by
  induction lines generalizing first refs assigned with
  | nil =>
    cases hread
    rw [List.sublist_nil, List.map_eq_nil_iff] at hsub
    rw [hsub]
    rfl
  | cons s lines ih =>
    rw [primaryLeaves_cons] at hread
    rw [List.zipIdx_cons, List.map_cons, rowEdits]
    dsimp only
    cases hleaf : primaryLeaf? first s with
    | none =>
      rw [hleaf] at hread
      rw [numberChanges_of_none hleaf]
      exact ih hread hsub fun row hrow => hnew row (by omega)
    | some l =>
      rw [hleaf] at hread
      cases hread with
      | @cons _ r _ refs hl hmore =>
        have hrow := inRow_primaryLeaf? hleaf
        have hlater := le_row_of_read hmore
        have hr : r.span.start.row = first := by rw [(ofLeaf_ok hl).2.1, hrow.1]
        by_cases hmem : (assigned.map (·.1)).Sublist refs
        · -- the line keeps its number, all assignments are to later rows
          have hnone : new first = none := by
            rw [hnew first (Nat.le_refl _)]
            apply newNumber?_eq_none
            intro p hp
            have := hlater p.1 (hmem.subset (List.mem_map_of_mem hp))
            omega
          rw [hnone, numberChanges_none]
          exact ih hmore hmem fun row hrow => hnew row (by omega)
        · rcases assigned with _ | ⟨⟨r', n⟩, assigned⟩
          · exact absurd (List.nil_sublist _) hmem
          · rcases List.sublist_cons_iff.1 hsub with hsub | ⟨tail, htail, hsub⟩
            · exact absurd hsub hmem
            · simp only [List.map_cons, List.cons.injEq] at htail
              obtain ⟨rfl, rfl⟩ := htail
              have hsome : new first = some n := by
                rw [hnew first (Nat.le_refl _), newNumber?, List.find?_cons_of_pos (by simp [hr])]
                rfl
              have hrest : ∀ row, first + 1 ≤ row → new row = newNumber? assigned row := by
                intro row hrow
                have hne : (r'.span.start.row == (row : Int)) = false := by
                  simp only [beq_eq_false_iff_ne]
                  omega
                rw [hnew row (by omega), newNumber?, List.find?_cons_of_neg (by simp [hne])]
                rfl
              rw [hsome, numberChanges_some hleaf, List.map_cons, List.map_nil,
                ← edit_eq hl hrow n, ih hmore hsub hrest]
              rfl

theorem inRow_of_spread {i j : Input} {leaves : List Leaf} (h : Spread i leaves j) {row : Nat}
    (hrow : i.row = row) : ∀ l ∈ leaves, InRow row l := by
  induction h with
  | done => simp
  | pass h _ ih => exact ih (h.row.trans hrow)
  | number _ _ ih =>
    intro l hl
    rcases List.mem_cons.1 hl with rfl | hl
    · exact ⟨hrow, hrow⟩
    · exact ih hrow l hl

theorem inRow_lineReferences (row : Nat) (s : List Char) :
    ∀ l ∈ lineReferences row s, InRow row l := by
  cases h : Lexeme.lineNumber s with
  | none => simp [lineReferences_of_none h]
  | some pair =>
    obtain ⟨j, hspread⟩ := spread_lineReferences row h
    exact inRow_of_spread hspread rfl

def referenceEdit? (table : List (Nat × Int)) (l : Leaf) : Option Edit :=
  (Table.get? table (Numeral.digitsValue l.text)).map fun n =>
    ⟨.ofSpan l.span, rewritten l.text n⟩

theorem filterMap_referenceEdit? (table : List (Nat × Int)) {leaves : List Leaf}
    {refs : List Reference} (h : Read leaves refs) :
    (refs.filterMap fun r => (Table.get? table r.number).map r.edit) =
      leaves.filterMap (referenceEdit? table) := by
  induction h with
  | nil => rfl
  | @cons l r _ _ hl _ ih =>
    obtain ⟨hnumber, -, hedit⟩ := ofLeaf_ok hl
    have hhead : (Table.get? table r.number).map r.edit = referenceEdit? table l := by
      rw [hnumber, funext hedit, referenceEdit?]
    rw [List.filterMap_cons, List.filterMap_cons, hhead, ih]

theorem map_referenceChanges (table : List (Nat × Int)) (row : Nat) (s : List Char) :
    (referenceChanges table row s).map (·.edit row) =
      (lineReferences row s).filterMap (referenceEdit? table) := by
  rw [referenceChanges, List.map_filterMap]
  apply List.filterMap_congr
  intro l hl
  rw [referenceEdit?, Option.map_map]
  exact congrArg (Option.map · _) (funext (edit_changeOf (inRow_lineReferences row s l hl)))

/-- The changes of the references carry out the edits of the references. -/
theorem rowEdits_referenceChanges (table : List (Nat × Int)) (lines : List (List Char))
    {refs : List Reference}
    (hread : Read (lines.zipIdx.flatMap fun (s, row) => lineReferences row s) refs) :
    rowEdits 0 (lines.zipIdx.map fun (s, row) => referenceChanges table row s) =
      refs.filterMap fun r => (Table.get? table r.number).map r.edit := by
  rw [rowEdits_zipIdx, filterMap_referenceEdit? table hread, List.filterMap_flatMap]
  simp only [map_referenceChanges]

/-- Edits of two sorts, line by line or one sort after the other. -/
theorem rowEdits_append_perm (f g : Nat → List Char → List Change) (lines : List (List Char)) :
    (rowEdits 0 (lines.zipIdx.map fun (s, row) => f row s) ++
        rowEdits 0 (lines.zipIdx.map fun (s, row) => g row s)).Perm
      (rowEdits 0 (lines.zipIdx.map fun (s, row) => f row s ++ g row s)) := by
  rw [rowEdits_zipIdx, rowEdits_zipIdx, rowEdits_zipIdx fun row s => f row s ++ g row s]
  simp only [List.map_append]
  exact List.flatMap_append_perm _ _ _

theorem referenceChanges_nil (row : Nat) (s : List Char) : referenceChanges [] row s = [] := by
  rw [referenceChanges, List.filterMap_eq_nil_iff]
  intro l _
  rfl

/-- The edits are those of the lines, and behind them those of the references if these are asked
for and any line is given a number. -/
theorem editsOf_ok {text : List Char} {assigned : List (Reference × Int)}
    {updateReferences : Bool} {es : List Edit}
    (h : editsOf text assigned updateReferences = .ok es) :
    ((updateReferences = false ∨ assigned = []) ∧ es = assigned.map fun (r, n) => r.edit n) ∨
      updateReferences = true ∧ ∃ refs, secondaries (program text) = .ok refs ∧
        es = (assigned.map fun (r, n) => r.edit n) ++
          refs.filterMap fun r => (Table.get? (mapping assigned) r.number).map r.edit := by
  unfold editsOf at h
  cases updateReferences with
  | false =>
    cases h
    exact .inl ⟨.inl rfl, rfl⟩
  | true =>
    rcases assigned with _ | ⟨first, assigned⟩
    · cases h
      exact .inl ⟨.inr rfl, rfl⟩
    · cases hrefs : secondaries (program text) with
      | error e =>
        rw [hrefs] at h
        cases h
      | ok refs =>
        rw [hrefs] at h
        cases h
        exact .inr ⟨rfl, refs, rfl, rfl⟩

/-- The edits of a renumbering are the changes of all lines. -/
theorem perm_of_editsOf {text : List Char} {olds : List Reference}
    (hread : Read (primaryLeaves (Text.lines text) 0) olds) {assigned : List (Reference × Int)}
    (hsub : (assigned.map (·.1)).Sublist olds) {updateReferences : Bool} {es : List Edit}
    (h : editsOf text assigned updateReferences = .ok es) :
    es.Perm (rowEdits 0 ((Text.lines text).zipIdx.map fun (s, row) =>
      lineChanges assigned updateReferences row s)) := by
  have hnumbers := rowEdits_numberChanges hread hsub (newNumber? assigned) fun _ _ => rfl
  rcases editsOf_ok h with ⟨hnone, rfl⟩ | ⟨rfl, refs, hrefs, rfl⟩
  · have halone : ∀ row s, lineChanges assigned updateReferences row s =
        numberChanges (newNumber? assigned row) row s := by
      intro row s
      rcases hnone with rfl | rfl
      · simp [lineChanges, laterChanges]
      · simp [lineChanges, laterChanges, mapping, referenceChanges_nil]
    simp only [halone]
    rw [hnumbers]
  · rw [secondaries_eq, references_program] at hrefs
    have hreferences := rowEdits_referenceChanges (mapping assigned) (Text.lines text)
      (read_of_mapM hrefs)
    rw [← hnumbers, ← hreferences]
    exact rowEdits_append_perm (fun row s => numberChanges (newNumber? assigned row) row s)
      (referenceChanges (mapping assigned)) _

/-- Leaves that are spread over a text can be changed without overlaps. -/
theorem fits_of_spread {i j : Input} {leaves : List Leaf} (h : Spread i leaves j)
    (new : Leaf → Option Int) :
    Fits i.col (i.col + i.rest.length) (leaves.filterMap fun l => (new l).map (changeOf l)) := by
  induction h with
  | @done i => exact Nat.le_add_right _ _
  | @pass i k j text leaves h _ ih =>
    have hend : k.col + k.rest.length = i.col + i.rest.length := by
      rw [h.col, h.rest, List.length_append]
      omega
    rw [hend] at ih
    exact ih.of_le (by rw [h.col]; omega)
  | @number i j kind text rest leaves read _ ih =>
    have htext : 0 < text.length := List.length_pos_iff.2 (ne_nil_of_integer read)
    have hend : (i.after text rest).col + (i.after text rest).rest.length =
        i.col + i.rest.length := by
      rw [← Lexeme.append_of_integer read, List.length_append]
      simp only [Input.after]
      omega
    rw [hend] at ih
    rw [List.filterMap_cons]
    cases new ⟨kind, text, ⟨i.point, ⟨i.row, i.col + text.length⟩⟩⟩ with
    | none => exact ih.of_le (Nat.le_add_right _ _)
    | some n => exact ⟨Nat.le_refl _, by simp only [changeOf, Input.point]; omega, ih⟩

theorem primaryLeaf?_eq_none {row : Int} {s : List Char} (h : Lexeme.lineNumber s = none) :
    primaryLeaf? row s = none := by
  rw [primaryLeaf?, h]
  rfl

theorem lineChanges_of_none {assigned : List (Reference × Int)} {updateReferences : Bool}
    {row : Nat} {s : List Char} (h : Lexeme.lineNumber s = none) :
    lineChanges assigned updateReferences row s = [] := by
  rw [lineChanges, numberChanges_of_none (primaryLeaf?_eq_none h), laterChanges, referenceChanges,
    lineReferences_of_none h]
  split <;> rfl

theorem fits_laterChanges (assigned : List (Reference × Int)) (updateReferences : Bool)
    (row : Nat) {s number rest : List Char} (h : Lexeme.lineNumber s = some (number, rest)) :
    Fits number.length (number.length + rest.length)
      (laterChanges assigned updateReferences row s) := by
  unfold laterChanges
  split
  · obtain ⟨j, hspread⟩ := spread_lineReferences row h
    exact fits_of_spread hspread fun l =>
      Table.get? (mapping assigned) (Numeral.digitsValue l.text)
  · exact Nat.le_add_right _ _

theorem primaryLeaf?_eq_some (row : Int) {s number rest : List Char}
    (h : Lexeme.lineNumber s = some (number, rest)) :
    primaryLeaf? row s = some ⟨.lineNumber, number, ⟨⟨row, 0⟩, ⟨row, number.length⟩⟩⟩ := by
  rw [primaryLeaf?, h]
  rfl

/-- The changes of a line fit into it. -/
theorem fits_lineChanges (assigned : List (Reference × Int)) (updateReferences : Bool)
    (row : Nat) (s : List Char) : Fits 0 s.length (lineChanges assigned updateReferences row s) := by
  cases h : Lexeme.lineNumber s with
  | none =>
    rw [lineChanges_of_none h]
    exact Nat.zero_le _
  | some pair =>
    obtain ⟨number, rest⟩ := pair
    have hlater := fits_laterChanges assigned updateReferences row h
    have hlength : number.length + rest.length = s.length := by
      rw [← Lexeme.append_of_lineNumber h, List.length_append]
    rw [hlength] at hlater
    rw [lineChanges]
    cases newNumber? assigned row with
    | none =>
      rw [numberChanges_none]
      exact hlater.of_le (Nat.zero_le _)
    | some n =>
      rw [numberChanges_some (primaryLeaf?_eq_some row h)]
      exact ⟨Nat.le_refl _, List.length_pos_iff.2 (ne_nil_of_lineNumber h), hlater⟩

/-- A line with a new number, if it is given one, and with the references behind it changed. -/
theorem patch_lineChanges (assigned : List (Reference × Int)) (updateReferences : Bool)
    (row : Nat) {s number rest : List Char} (h : Lexeme.lineNumber s = some (number, rest)) :
    patch 0 s (lineChanges assigned updateReferences row s) =
      (newNumber? assigned row).elim number (rewritten number) ++
        patch number.length rest (laterChanges assigned updateReferences row s) := by
  have hs : s = number ++ rest := (Lexeme.append_of_lineNumber h).symm
  have hlater := fits_laterChanges assigned updateReferences row h
  rw [lineChanges]
  cases newNumber? assigned row with
  | none =>
    have hfits : Fits (0 + number.length) (number.length + rest.length)
        (laterChanges assigned updateReferences row s) := by rwa [Nat.zero_add]
    have hpatch := patch_append_left number (t := rest) hfits
    rw [Nat.zero_add, ← hs] at hpatch
    rw [numberChanges_none, List.nil_append, Option.elim]
    exact hpatch
  | some n =>
    rw [numberChanges_some (primaryLeaf?_eq_some row h), List.singleton_append, patch]
    simp [changeOf, hs]

theorem trimLeft_append {gaps text : List Char} (hgaps : ∀ c ∈ gaps, Text.isGap c = true)
    (htext : Lexeme.IsInteger text) (rest : List Char) :
    Text.trimLeft (gaps ++ (text ++ rest)) = text ++ rest := by
  obtain ⟨c, more, rfl, hc⟩ := htext.head
  have hblank : ∀ d ∈ gaps, Text.isBlank d = true := fun d hd => Text.isBlank_of_isGap (hgaps d hd)
  rw [Text.trimLeft, List.dropWhile_append_of_pos hblank, List.cons_append,
    List.dropWhile_cons_of_neg (by simp [Text.isBlank_of_isDigit hc])]

theorem mem_rewritten {text : List Char} {n : Int} {c : Char} (h : c ∈ rewritten text n) :
    c = ' ' ∨ c = '-' ∨ c.isDigit = true := by
  have hdecimal : ∀ {m : Nat}, c ∈ Numeral.decimal m → c = ' ' ∨ c = '-' ∨ c.isDigit = true :=
    fun h => .inr (.inr (Numeral.isDigit_of_mem_decimal h))
  rw [rewritten, List.mem_append, List.mem_append] at h
  rcases h with (h | h) | h
  · exact .inl (List.eq_of_mem_replicate h)
  · unfold Numeral.decimalInt at h
    split at h
    · rcases List.mem_cons.1 h with rfl | h
      · exact .inr (.inl rfl)
      · exact hdecimal h
    · exact hdecimal h
  · exact .inl (List.eq_of_mem_replicate h)

theorem rewritten_ne_nil (text : List Char) (n : Int) : rewritten text n ≠ [] := by
  have hdecimal : Numeral.decimalInt n ≠ [] := by
    unfold Numeral.decimalInt
    split
    · exact List.cons_ne_nil _ _
    · exact Numeral.decimal_ne_nil _
  rw [rewritten]
  exact List.append_ne_nil_of_left_ne_nil (List.append_ne_nil_of_right_ne_nil _ hdecimal) _

/-- A change puts a number with spaces around it into a line. -/
theorem new_of_mem_lineChanges {assigned : List (Reference × Int)} {updateReferences : Bool}
    {row : Nat} {s : List Char} {c : Change}
    (h : c ∈ lineChanges assigned updateReferences row s) : ∃ text n, c.new = rewritten text n := by
  rw [lineChanges, List.mem_append] at h
  rcases h with h | h
  · unfold numberChanges at h
    split at h
    · rw [List.mem_singleton.1 h]
      exact ⟨_, _, rfl⟩
    · cases h
  · unfold laterChanges at h
    split at h
    · obtain ⟨l, -, hl⟩ := List.mem_filterMap.1 h
      obtain ⟨n, -, rfl⟩ := Option.map_eq_some_iff.1 hl
      exact ⟨_, _, rfl⟩
    · cases h

theorem forall₂_zipIdx {α β : Type} {R : α → β → Prop} {f : Nat → α → β}
    (h : ∀ row s, R s (f row s)) (xs : List α) (first : Nat) :
    List.Forall₂ R xs ((xs.zipIdx first).map fun (s, row) => f row s) := by
  induction xs generalizing first with
  | nil => exact .nil
  | cons x xs ih => exact .cons (h first x) (ih (first + 1))

theorem zipWith_zipIdx {α β γ : Type} (g : α → β → γ) (f : Nat → α → β) (xs : List α)
    (first : Nat) :
    List.zipWith g xs ((xs.zipIdx first).map fun (s, row) => f row s) =
      (xs.zipIdx first).map fun (s, row) => g s (f row s) := by
  induction xs generalizing first with
  | nil => rfl
  | cons x xs ih =>
    rw [List.zipIdx_cons, List.map_cons, List.zipWith_cons_cons, ih]
    rfl

/-- The edits of a renumbering carry out the changes of all lines. -/
theorem lineEdits_of_editsOf {text : List Char} {olds : List Reference}
    (hread : Read (primaryLeaves (Text.lines text) 0) olds) {assigned : List (Reference × Int)}
    (hsub : (assigned.map (·.1)).Sublist olds) {updateReferences : Bool} {es : List Edit}
    (h : editsOf text assigned updateReferences = .ok es) :
    LineEdits text ((Text.lines text).zipIdx.map fun (s, row) =>
      lineChanges assigned updateReferences row s) es := by
  refine ⟨forall₂_zipIdx (fun row s => fits_lineChanges assigned updateReferences row s)
    (Text.lines text) 0, fun cs hcs c hc => ?_, perm_of_editsOf hread hsub h⟩
  obtain ⟨⟨s, row⟩, -, rfl⟩ := List.mem_map.1 hcs
  obtain ⟨old, n, hnew⟩ := new_of_mem_lineChanges hc
  rw [hnew]
  refine ⟨rewritten_ne_nil old n, fun hmem => ?_, fun hmem => ?_⟩
  · rcases mem_rewritten hmem with h | h | h <;> revert h <;> decide
  · rcases mem_rewritten hmem with h | h | h <;> revert h <;> decide

/-- The new text has the old lines, each with its changes. -/
theorem lines_of_editsOf {text : List Char} {olds : List Reference}
    (hread : Read (primaryLeaves (Text.lines text) 0) olds) {assigned : List (Reference × Int)}
    (hsub : (assigned.map (·.1)).Sublist olds) {updateReferences : Bool} {es : List Edit}
    (h : editsOf text assigned updateReferences = .ok es) :
    ∃ new, applyEdits? text es = some new ∧
      Text.lines new = (Text.lines text).zipIdx.map fun (s, row) =>
        patch 0 s (lineChanges assigned updateReferences row s) := by
  obtain ⟨new, happly, -, hlines⟩ := (lineEdits_of_editsOf hread hsub h).apply
  refine ⟨new, happly, ?_⟩
  rw [hlines]
  exact zipWith_zipIdx _ _ _ 0

/-- A reference begins with a digit. -/
theorem digit_of_spread {i j : Input} {leaves : List Leaf} (h : Spread i leaves j) :
    ∀ l ∈ leaves, i.col ≤ l.span.start.col ∧
      (i.rest.drop (l.span.start.col - i.col)).head?.any Char.isDigit = true := by
  induction h with
  | done => simp
  | @pass i k j text leaves h _ ih =>
    intro l hl
    obtain ⟨hle, hdigit⟩ := ih l hl
    have hcol := h.col
    refine ⟨by omega, ?_⟩
    rw [h.rest, List.drop_append, List.drop_of_length_le (by omega), List.nil_append]
    rwa [show l.span.start.col - i.col - text.length = l.span.start.col - k.col by omega]
  | @number i j kind text rest leaves read _ ih =>
    intro l hl
    rcases List.mem_cons.1 hl with rfl | hl
    · refine ⟨Nat.le_refl _, ?_⟩
      obtain ⟨hs, htext, -⟩ := Lexeme.integer_some read
      obtain ⟨c, more, rfl, hc⟩ := htext.head
      simp [hs, hc, Input.point]
    · obtain ⟨hle, hdigit⟩ := ih l hl
      simp only [Input.after] at hle hdigit
      refine ⟨by omega, ?_⟩
      rw [← Lexeme.append_of_integer read, List.drop_append, List.drop_of_length_le (by omega),
        List.nil_append]
      rwa [show l.span.start.col - i.col - text.length = l.span.start.col - (i.col + text.length)
        by omega]

/-- What comes first behind the number of a line stays. -/
theorem head?_patch_laterChanges (assigned : List (Reference × Int)) (updateReferences : Bool)
    (row : Nat) {s number rest : List Char} (h : Lexeme.lineNumber s = some (number, rest)) :
    (patch number.length rest (laterChanges assigned updateReferences row s)).head? =
      rest.head? := by
  apply head?_patch (fits_laterChanges assigned updateReferences row h)
  intro c hc
  unfold laterChanges at hc
  split at hc
  · obtain ⟨l, hl, hlc⟩ := List.mem_filterMap.1 hc
    obtain ⟨n, -, rfl⟩ := Option.map_eq_some_iff.1 hlc
    obtain ⟨j, hspread⟩ := spread_lineReferences row h
    obtain ⟨hle, hdigit⟩ := digit_of_spread hspread l hl
    obtain ⟨-, -, -, -, -, hrest, -⟩ := Lexeme.lineNumber_some h
    rcases Nat.lt_or_eq_of_le hle with hlt | heq
    · exact hlt
    · -- a reference right behind the number would have been part of it
      rw [← heq, Nat.sub_self, List.drop_zero] at hdigit
      obtain ⟨c, hc, hdigit⟩ := (Option.any_eq_true _ _).1 hdigit
      have hend := hrest c hc
      rw [Lexeme.isDigitOrSpace, hdigit] at hend
      cases hend
  · cases hc

end IntegerBasic.Renumber
