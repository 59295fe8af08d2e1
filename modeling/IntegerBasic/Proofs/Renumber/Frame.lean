import IntegerBasic.Proofs.Document.Substitution
import IntegerBasic.Proofs.Renumber.LineOrder
import IntegerBasic.Proofs.Renumber.RewrittenLines

/-!
# What renumbering changes

A renumbering replaces some numbers of a program where they stand, and nothing else: the numbers of
the selected lines, and, if asked for, the references to them. This holds in broken programs, too,
since the numbers of a line stand one behind the other even where its other leaves do not.
-/

namespace IntegerBasic.Renumber

open Grammar Document

/-! ### The numbers that are replaced -/

/-- The number stands in a selected row. Without a selection all rows are. -/
def isChosen (selection : Option Selection) (l : Leaf) : Bool :=
  selection.all (·.contains l.span.start.row)

def numbering (text : List Char) (selection : Option Selection) (first step : Int) :
    List (Leaf × Int) :=
  ((primaryLeaves (Text.lines text) 0).filter (isChosen selection)).zipIdx.map fun (l, i) =>
    (l, first + step * i)

/-- The number that is given to a line with an old one. Of several such lines the last counts. -/
def newFor? (numbering : List (Leaf × Int)) (old : Nat) : Option Int :=
  (numbering.reverse.find? fun p => Numeral.digitsValue p.1.text == old).map (·.2)

def updates (text : List Char) (numbering : List (Leaf × Int)) : List (Leaf × Int) :=
  (references [] (program text).children).filterMap fun l =>
    (newFor? numbering (Numeral.digitsValue l.text)).map (l, ·)

/-- All numbers that are replaced, each with the new one. -/
def replaced (text : List Char) (selection : Option Selection) (first step : Int)
    (updateReferences : Bool) : List (Leaf × Int) :=
  numbering text selection first step ++
    if updateReferences then updates text (numbering text selection first step) else []

/-- The edit that puts a number in the place of another, with as many spaces around it as there
were blanks. -/
def numberEdit (l : Leaf) (n : Int) : Edit := ⟨.ofSpan l.span, rewritten l.text n⟩

def Matches (p : Leaf × Int) (q : Reference × Int) : Prop :=
  Reference.ofLeaf p.1 = .ok q.1 ∧ p.2 = q.2

theorem forall₂_numbering {text : List Char} {olds : List Reference}
    (hread : Read (primaryLeaves (Text.lines text) 0) olds) (selection : Option Selection)
    (first step : Int) :
    List.Forall₂ Matches (numbering text selection first step)
      (assign first step (olds.filter (isSelected selection))) := by
  have hzip : ∀ {leaves : List Leaf} {refs : List Reference} (n : Nat), Read leaves refs →
      List.Forall₂ Matches ((leaves.zipIdx n).map fun p => (p.1, first + step * p.2))
        ((refs.zipIdx n).map fun p => (p.1, first + step * p.2)) := by
    intro leaves refs n h
    induction h generalizing n with
    | nil => exact .nil
    | cons hl _ ih => exact .cons ⟨hl, rfl⟩ (ih (n + 1))
  have hchosen : Read ((primaryLeaves (Text.lines text) 0).filter (isChosen selection))
      (olds.filter (isSelected selection)) := by
    refine List.rel_filter (fun {l r} hl => ?_) hread
    simp [isChosen, isSelected, (ofLeaf_ok hl).2.1]
  exact hzip 0 hchosen

theorem map_edit {numbering : List (Leaf × Int)} {assigned : List (Reference × Int)}
    (h : List.Forall₂ Matches numbering assigned) :
    (assigned.map fun (r, n) => r.edit n) = numbering.map fun (l, n) => numberEdit l n := by
  induction h with
  | nil => rfl
  | @cons p q _ _ hp _ ih =>
    have hedit : q.1.edit q.2 = numberEdit p.1 p.2 := by
      rw [(ofLeaf_ok hp.1).2.2, hp.2]
      rfl
    rw [List.map_cons, List.map_cons, ih]
    exact congrArg (· :: _) hedit

theorem get?_mapping_eq {numbering : List (Leaf × Int)} {assigned : List (Reference × Int)}
    (h : List.Forall₂ Matches numbering assigned) (old : Nat) :
    Table.get? (mapping assigned) old = newFor? numbering old := by
  have hback := List.forall₂_reverse_iff.2 h
  rw [get?_mapping_reverse, newFor?]
  generalize numbering.reverse = numbering at hback ⊢
  generalize assigned.reverse = assigned at hback ⊢
  induction hback with
  | nil => rfl
  | @cons p q _ _ hp _ ih =>
    have hnumber : q.1.number = Numeral.digitsValue p.1.text := (ofLeaf_ok hp.1).1
    by_cases hold : Numeral.digitsValue p.1.text = old
    · simp [hnumber, hold, hp.2]
    · simpa [hnumber, hold] using ih

/-- The edits of the references. -/
theorem map_updates {text : List Char} {numbering : List (Leaf × Int)}
    {assigned : List (Reference × Int)} (h : List.Forall₂ Matches numbering assigned)
    {refs : List Reference} (hread : Read (references [] (program text).children) refs) :
    (refs.filterMap fun r => (Table.get? (mapping assigned) r.number).map r.edit) =
      (updates text numbering).map fun (l, n) => numberEdit l n := by
  rw [filterMap_referenceEdit? _ hread, updates, List.map_filterMap]
  apply List.filterMap_congr
  intro l _
  rw [referenceEdit?, get?_mapping_eq h, Option.map_map]
  rfl

/-- The edits are those of the numbers that are replaced. -/
theorem editsOf_eq {text : List Char} {selection : Option Selection} {first step : Int}
    {assigned : List (Reference × Int)}
    (h : List.Forall₂ Matches (numbering text selection first step) assigned)
    {updateReferences : Bool} {es : List Edit}
    (hedits : editsOf text assigned updateReferences = .ok es) :
    es = (replaced text selection first step updateReferences).map fun (l, n) =>
      numberEdit l n := by
  rw [replaced, List.map_append, ← map_edit h]
  rcases editsOf_ok hedits with ⟨rfl | rfl, rfl⟩ | ⟨rfl, refs, hrefs, rfl⟩
  · simp
  · rw [List.forall₂_nil_right_iff.1 h]
    simp [updates, newFor?]
  · rw [secondaries_eq] at hrefs
    rw [map_updates h (read_of_mapM hrefs), if_pos rfl]

/-! ### Where the numbers stand -/

/-- Leaves that are spread over a text stand in it. -/
theorem place_of_spread {i j : Input} {leaves : List Leaf} (h : Spread i leaves j) :
    ∀ l ∈ leaves, ∃ before behind, i.rest = before ++ (l.text ++ behind) ∧
      l.span = ⟨⟨i.row, (i.col + before.length : Nat)⟩,
        ⟨i.row, (i.col + before.length + l.text.length : Nat)⟩⟩ := by
  induction h with
  | done => simp
  | @pass i k j text leaves h _ ih =>
    intro l hl
    obtain ⟨before, behind, hrest, hspan⟩ := ih l hl
    refine ⟨text ++ before, behind, by rw [h.rest, hrest, List.append_assoc], ?_⟩
    rw [hspan, h.row, h.col, List.length_append, Nat.add_assoc i.col]
  | @number i j kind text rest leaves read _ ih =>
    intro l hl
    rcases List.mem_cons.1 hl with rfl | hl
    · exact ⟨[], rest, (Lexeme.append_of_integer read).symm, rfl⟩
    · obtain ⟨before, behind, hrest, hspan⟩ := ih l hl
      refine ⟨text ++ before, behind, ?_, ?_⟩
      · rw [← Lexeme.append_of_integer read, List.append_assoc]
        exact congrArg (text ++ ·) hrest
      · rw [hspan]
        simp [Input.after, Nat.add_assoc]

/-- The number of a line stands in the text. -/
theorem holds_of_mem_primaryLeaves {text : List Char} {l : Leaf}
    (h : l ∈ primaryLeaves (Text.lines text) 0) : (Range.ofSpan l.span).Holds text l.text := by
  obtain ⟨row, s, hs, hl⟩ := mem_primaryLeaves.1 h
  obtain ⟨⟨number, rest⟩, hnumber, rfl⟩ := Option.map_eq_some_iff.1 hl
  rw [← Lexeme.append_of_lineNumber hnumber] at hs
  simpa [Range.ofSpan, Position.ofPoint] using @holds_of_line text [] number rest row hs

/-- A reference stands in the text. -/
theorem holds_of_mem_references {text : List Char} {l : Leaf}
    (h : l ∈ references [] (program text).children) : (Range.ofSpan l.span).Holds text l.text := by
  rw [references_program] at h
  obtain ⟨⟨s, row⟩, hs, hl⟩ := List.mem_flatMap.1 h
  rw [List.mem_zipIdx_iff_getElem?] at hs
  dsimp only at hs hl
  cases hnumber : Lexeme.lineNumber s with
  | none =>
    rw [lineReferences_of_none hnumber] at hl
    cases hl
  | some pair =>
    obtain ⟨number, rest⟩ := pair
    obtain ⟨j, hspread⟩ := spread_lineReferences row hnumber
    obtain ⟨before, behind, hrest, hspan⟩ := place_of_spread hspread l hl
    dsimp only at hrest hspan
    rw [← Lexeme.append_of_lineNumber hnumber, hrest, ← List.append_assoc] at hs
    have hholds := holds_of_line hs
    rw [List.length_append] at hholds
    rw [hspan]
    exact hholds

/-- What is replaced are numbers of the program, each where it stands. -/
theorem of_mem_replaced {text : List Char} {selection : Option Selection} {first step : Int}
    {updateReferences : Bool} {p : Leaf × Int}
    (h : p ∈ replaced text selection first step updateReferences) :
    p.1 ∈ (program text).leaves ∧ p.1.kind.isNumber = true ∧
      (Range.ofSpan p.1.span).Holds text p.1.text := by
  have hnumbers : ∀ {q : Leaf × Int}, q ∈ numbering text selection first step →
      q.1 ∈ primaryLeaves (Text.lines text) 0 := by
    intro q hq
    obtain ⟨⟨l, i⟩, hmem, rfl⟩ := List.mem_map.1 hq
    exact (List.mem_filter.1 (List.fst_mem_of_mem_zipIdx hmem)).1
  rw [replaced, List.mem_append] at h
  rcases h with h | h
  · have hprimary := hnumbers h
    have hleaf := hprimary
    rw [← filter_program_leaves, List.mem_filter, beq_iff_eq] at hleaf
    exact ⟨hleaf.1, by rw [hleaf.2]; rfl, holds_of_mem_primaryLeaves hprimary⟩
  · split at h
    · obtain ⟨l, hl, hnew⟩ := List.mem_filterMap.1 h
      obtain ⟨n, -, rfl⟩ := Option.map_eq_some_iff.1 hnew
      have hkind : l.kind.isNumber = true := by
        rcases kind_of_mem_references hl with h | h <;> rw [h] <;> rfl
      exact ⟨(sublist_references _ _).mem hl, hkind, holds_of_mem_references hl⟩
    · cases h

/-- A renumbering that succeeds gives one edit for each number that is replaced. The ranges are
apart from one another, each holds its number, and carrying out the edits replaces them all at once
and leaves the rest of the text as it is. Without the references these are the numbers of the
selected lines. -/
theorem edits_frame {text : List Char} {start step : Json} {updateReferences : Bool}
    {selection : Option Selection} {es : List Edit}
    (h : edits text start step updateReferences selection = .ok es) :
    ∃ first increment, parameters start step = .ok (first, increment) ∧
      es = (replaced text selection first increment updateReferences).map
        (fun (l, n) => numberEdit l n) ∧
      (∀ p ∈ replaced text selection first increment updateReferences,
        p.1 ∈ (program text).leaves ∧ p.1.kind.isNumber = true ∧
          (Range.ofSpan p.1.span).Holds text p.1.text) ∧
      es.Pairwise Apart ∧
      applyEdits? text es = some (substitute es text) ∧
      (updateReferences = false →
        (replaced text selection first increment updateReferences).map (·.1) =
          (primaryLeaves (Text.lines text) 0).filter (isChosen selection)) := by
  unfold edits at h
  obtain ⟨assigned, hassigned, h⟩ := except_bind_ok h
  obtain ⟨first, increment, olds, hparameters, holds, rfl, -⟩ := assignments_ok hassigned
  have hread : Read (primaryLeaves (Text.lines text) 0) olds :=
    read_of_mapM (by rw [← primaries_eq, holds])
  have hsub : ((assign first increment (olds.filter (isSelected selection))).map (·.1)).Sublist
      olds := by
    rw [map_fst_assign]
    exact List.filter_sublist
  have hseparate := (lineEdits_of_editsOf hread hsub h).separate
  refine ⟨first, increment, hparameters, editsOf_eq (forall₂_numbering hread _ _ _) h,
    fun p hp => of_mem_replaced hp, hseparate.apart, applyEdits?_of_separate hseparate, ?_⟩
  rintro rfl
  rw [replaced, if_neg Bool.false_ne_true, List.append_nil, numbering, List.map_map]
  exact List.zipIdx_map_fst _ _

/-- A broken line that ends in a carriage return, a tab and blanks around numbers, and a reference
to a line that is not there. -/
theorem edits_frame_broken :
    let text := "10 GOTO 20:X\r\n\t20 LIST 10 ,5".toList
    ∃ es, edits text (.int 7) (.int 1) true none = .ok es ∧
      ∃ first increment, parameters (.int 7) (.int 1) = .ok (first, increment) ∧
        es = (replaced text none first increment true).map (fun (l, n) => numberEdit l n) ∧
        (∀ p ∈ replaced text none first increment true,
          p.1 ∈ (program text).leaves ∧ p.1.kind.isNumber = true ∧
            (Range.ofSpan p.1.span).Holds text p.1.text) ∧
        es.Pairwise Apart ∧
        applyEdits? text es = some (substitute es text) ∧
        (true = false → (replaced text none first increment true).map (·.1) =
          (primaryLeaves (Text.lines text) 0).filter (isChosen none)) :=
  ⟨[⟨⟨⟨0, 0⟩, ⟨0, 3⟩⟩, "7 ".toList⟩, ⟨⟨⟨1, 0⟩, ⟨1, 4⟩⟩, " 8 ".toList⟩,
      ⟨⟨⟨0, 8⟩, ⟨0, 10⟩⟩, "8".toList⟩, ⟨⟨⟨1, 9⟩, ⟨1, 12⟩⟩, "7 ".toList⟩],
    by decide +kernel, edits_frame (by decide +kernel)⟩

/-- The text that comes out. -/
example : (edits "10 GOTO 20:X\r\n\t20 LIST 10 ,5".toList (.int 7) (.int 1) true none).toOption.map
    (substitute · "10 GOTO 20:X\r\n\t20 LIST 10 ,5".toList) =
      some "7 GOTO 8:X\r\n 8 LIST 7 ,5".toList := by
  decide +kernel

end IntegerBasic.Renumber
