import IntegerBasic.Proofs.Analysis.SyntaxErrors
import IntegerBasic.Proofs.Renumber.Changes

/-!
# Branch targets, looked at from both sides

Renumbering takes an integer for a line number if a branch stands right before it. The analysis
looks from the branch: the target is written as a number if nothing but this number stands between
the branch and the end of the statement or an error. The two agree on an integer exactly if
nothing but an error leaf follows it. Where an operator follows, the target is computed, and
renumbering still collects its first operand.
-/

namespace IntegerBasic

def Span.Before (a b : Span) : Prop :=
  a.start.row < b.start.row ∨ a.start.row = b.start.row ∧ a.start.col < b.start.col

namespace Renumber

open Grammar Analysis

/-- The integer that sits here, if renumbering takes it for the number of a line. -/
def operand? (seat : Seat) : Option Leaf := (reference? seat).filter (·.kind == .integer)

/-- The number behind the branch that sits here, if the analysis takes it for the target. -/
def literalTarget? (seat : Seat) : Option Leaf :=
  if isBranch seat.node then branchTarget? seat.following else none

/-- More than an error leaf follows among the siblings. -/
def isContinued (seat : Seat) : Bool := !seat.following.all Node.isError

/-- The operand that stands alone behind its branch. -/
def loneOperand? (seat : Seat) : Option Leaf := if isContinued seat then none else operand? seat

theorem operand?_leaf (l : Leaf) (left right : List Node) :
    operand? ⟨.leaf l, left, right⟩ =
      if l.kind = .integer ∧ left.head?.any isBranch = true then some l else none := by
  obtain ⟨kind, text, span⟩ := l
  cases hbranch : left.head?.any isBranch <;>
    cases kind <;> simp [operand?, reference?, isSecondary, hbranch]

theorem isBranch_inner (label : Label) (children : List Node) :
    isBranch (.inner label children) = false := rfl

/-- Behind an error leaf there is nothing, so siblings that begin with one are errors all. -/
theorem all_isError_eq {nodes : List Node} (h : ErrorsLast nodes) :
    nodes.all Node.isError = (nodes.takeWhile (!·.isError)).isEmpty := by
  cases h with
  | nil => rfl
  | inner => rfl
  | @leaf l right last _ =>
    cases hl : l.kind.isError with
    | false => simp [hl]
    | true => simp [hl, last hl]

/-- A lone operand is what its branch finds behind itself. -/
theorem loneOperand?_eq (left : List Node) {node : Node} {right : List Node}
    (h : ErrorsLast (node :: right)) (hbranch : left.head?.any isBranch = true) :
    loneOperand? ⟨node, left, right⟩ = branchTarget? (node :: right) := by
  have hright := all_isError_eq h.right
  cases node with
  | inner label children => simp [loneOperand?, operand?, reference?, branchTarget?]
  | leaf l =>
    obtain ⟨kind, text, span⟩ := l
    rw [loneOperand?, operand?_leaf, isContinued, hright]
    cases hmore : right.takeWhile (!·.isError) with
    | nil => cases kind <;> simp [branchTarget?, hmore, hbranch, LeafKind.isError]
    | cons x xs => cases kind <;> simp [branchTarget?, hmore, LeafKind.isError]

theorem loneOperand?_of_no_branch {left : List Node} (hbranch : left.head?.any isBranch = false)
    (node : Node) (right : List Node) : loneOperand? ⟨node, left, right⟩ = none := by
  cases node with
  | inner => simp [loneOperand?, operand?, reference?]
  | leaf l => simp [loneOperand?, operand?_leaf, hbranch]

/-- Seen from the operands there is one target more, if a branch stands before the siblings. -/
theorem filterMap_loneOperand? (left nodes : List Node) (h : ErrorsLast nodes) :
    (seats left nodes).filterMap loneOperand? =
      (if left.head?.any isBranch then branchTarget? nodes else none).toList ++
        (seats left nodes).filterMap literalTarget? := by
  induction nodes using siblings_induction generalizing left with
  | nil => simp [branchTarget?, seats]
  | cons node right children_ih right_ih =>
    have hcons : ∀ (f : Seat → Option Leaf) seat more,
        List.filterMap f (seat :: more) = (f seat).toList ++ more.filterMap f := by
      intro f seat more
      cases hf : f seat <;> simp [hf]
    have hlone : loneOperand? ⟨node, left, right⟩ =
        if left.head?.any isBranch then branchTarget? (node :: right) else none := by
      split
      · exact loneOperand?_eq left h ‹_›
      · exact loneOperand?_of_no_branch (Bool.eq_false_iff.2 ‹_›) node right
    have htarget : literalTarget? ⟨node, left, right⟩ =
        if isBranch node then branchTarget? right else none := rfl
    rw [seats, hcons, hcons, List.filterMap_append, List.filterMap_append, children_ih [] h.children,
      right_ih (node :: left) h.right, hlone, htarget]
    cases node with
    | leaf l => cases hbranch : isBranch (.leaf l) <;> simp [Node.children, seats, hbranch]
    | inner label children => simp [isBranch_inner]

/-- Leaves that are spread over a line begin one behind the other. -/
theorem Spread.pairwise {i j : Input} {leaves : List Leaf} (h : Spread i leaves j) :
    leaves.Pairwise (fun a b => a.span.start.col < b.span.start.col) ∧
      ∀ l ∈ leaves, i.col ≤ l.span.start.col := by
  induction h with
  | done => simp
  | pass h _ ih =>
    refine ⟨ih.1, fun l hl => ?_⟩
    have := ih.2 l hl
    have := h.col
    omega
  | @number i j kind text rest leaves read _ ih =>
    have hpos := List.length_pos_iff.2 (ne_nil_of_integer read)
    refine ⟨List.pairwise_cons.2 ⟨fun l hl => ?_, ih.1⟩, fun l hl => ?_⟩
    · have := ih.2 l hl
      simp only [Input.after, Input.point] at this ⊢
      omega
    · cases hl with
      | head => exact Nat.le_refl _
      | tail _ hl => exact Nat.le_trans (Nat.le_add_right _ _) (ih.2 l hl)

/-- The references of a program stand one behind the other. -/
theorem pairwise_references (text : List Char) :
    ((references [] (program text).children).map Leaf.span).Pairwise Span.Before := by
  rw [references_program, List.pairwise_map, List.pairwise_flatMap]
  constructor
  · rintro ⟨s, row⟩ -
    cases h : Lexeme.lineNumber s with
    | none => simp [lineReferences_of_none h]
    | some pair =>
      obtain ⟨j, hspread⟩ := spread_lineReferences row h
      refine hspread.pairwise.1.imp_of_mem fun {l l'} hl hl' hlt => .inr ⟨?_, hlt⟩
      rw [(inRow_lineReferences row s l hl).1, (inRow_lineReferences row s l' hl').1]
  · have hrows : ((Text.lines text).zipIdx.map Prod.snd).Pairwise (· < ·) := by
      rw [List.zipIdx_map_snd]
      exact List.pairwise_lt_range'
    refine (List.pairwise_map.1 hrows).imp ?_
    rintro ⟨s, row⟩ ⟨s', row'⟩ hlt l hl l' hl'
    left
    rw [(inRow_lineReferences row s l hl).1, (inRow_lineReferences row' s' l' hl').1]
    exact Int.ofNat_lt.2 hlt

/-- No two references of a program stand in the same place. -/
theorem nodup_spans (text : List Char) :
    ((references [] (program text).children).map Leaf.span).Nodup := by
  refine (pairwise_references text).imp fun hbefore heq => ?_
  subst heq
  rcases hbefore with hlt | ⟨-, hlt⟩
  · exact Int.lt_irrefl _ hlt
  · exact Nat.lt_irrefl _ hlt

/-- Some of the finds are all of them exactly if they fill the same places. -/
theorem sameSpans_iff {xs ys : List Leaf} (hsub : ys.Sublist xs) (hnodup : (xs.map Leaf.span).Nodup) :
    (∀ span, span ∈ xs.map Leaf.span ↔ span ∈ ys.map Leaf.span) ↔ ys = xs := by
  constructor
  · intro h
    have hperm := (List.perm_ext_iff_of_nodup (hnodup.sublist (hsub.map _)) hnodup).2
      fun span => (h span).symm
    exact hsub.eq_of_length (by simpa using hperm.length_eq)
  · rintro rfl span
    exact Iff.rfl

theorem sublist_loneOperand? (seats : List Seat) :
    (seats.filterMap loneOperand?).Sublist (seats.filterMap operand?) := by
  induction seats with
  | nil => exact .slnil
  | cons seat seats ih =>
    cases hc : isContinued seat <;> cases ho : operand? seat <;>
      simp [loneOperand?, hc, ho, ih, ih.cons]

theorem filterMap_operand? (seats : List Seat) :
    seats.filterMap operand? = (seats.filterMap reference?).filter (·.kind == .integer) := by
  rw [List.filter_filterMap]
  rfl

/-- The numbers that refer to lines are read from the leaves found seat by seat. What the analysis
takes for literal targets are, in order, the integers among them that stand alone. And the two
have the same places exactly if no integer behind a branch is continued. -/
theorem literal_targets_iff (text : List Char) :
    secondaries (program text) =
        ((program text).seats.filterMap reference?).mapM Reference.ofLeaf ∧
      (program text).seats.filterMap literalTarget? =
        (program text).seats.filterMap loneOperand? ∧
      ((∀ span, span ∈ ((program text).seats.filterMap operand?).map Leaf.span ↔
          span ∈ ((program text).seats.filterMap literalTarget?).map Leaf.span) ↔
        ∀ seat ∈ (program text).seats, (operand? seat).isSome = true →
          isContinued seat = false) := by
  have htargets : (program text).seats.filterMap literalTarget? =
      (program text).seats.filterMap loneOperand? :=
    (filterMap_loneOperand? [] _ (errorsLast_program text)).symm
  have hnodup : (((program text).seats.filterMap operand?).map Leaf.span).Nodup := by
    rw [filterMap_operand?]
    exact (nodup_spans text).sublist (List.filter_sublist.map _)
  refine ⟨secondaries_eq (program text), htargets, ?_⟩
  rw [htargets, sameSpans_iff (sublist_loneOperand? _) hnodup]
  exact filterMap_unless_eq_iff isContinued operand? _

/-- Behind `GOTO 10` an operator follows: the number is collected, but it is no literal target. -/
example : ((program "10 GOTO 10+A".toList).seats.filterMap operand?).map Leaf.text = ["10".toList] ∧
    (program "10 GOTO 10+A".toList).seats.filterMap literalTarget? = [] := by decide +kernel

end Renumber

end IntegerBasic
