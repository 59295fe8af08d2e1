import IntegerBasic.Proofs.Grammar.Overflow
import IntegerBasic.Proofs.Grammar.Tiling

/-!
# Progress

Every statement takes at least one character, up to a colon or the end of the line, whether it is
sound or broken, and no inner node is built that has no children. Only a line that nests too deep
for the stack is not read.
-/

namespace IntegerBasic

def Node.IsFilled : Node → Prop
  | .leaf _ => True
  | .inner _ children => children ≠ []

/-- The inner nodes among some nodes and below them have children. -/
def Filled (nodes : List Node) : Prop :=
  ∀ node ∈ nodes, node.IsFilled ∧ ∀ seat ∈ node.seats, seat.node.IsFilled

namespace Grammar

open Rule

variable {α : Type}

section Filled

variable {i j : Input} {nodes : List Node} {node : Node}

theorem filled_append {xs ys : List Node} : Filled (xs ++ ys) ↔ Filled xs ∧ Filled ys :=
  List.forall_mem_append

theorem filled_cons : Filled (node :: nodes) ↔ Filled [node] ∧ Filled nodes := by
  rw [← List.singleton_append, filled_append]

theorem filled_leaf (l : Leaf) : Filled [.leaf l] := by
  simp [Filled, Node.IsFilled, Node.seats, Node.children, seats]

theorem filled_inner {label : Label} :
    Filled [.inner label nodes] ↔ nodes ≠ [] ∧ Filled nodes := by
  rw [Filled, List.forall_mem_singleton, Node.seats, forall_seats_iff]
  rfl

theorem Trace.filled {K : LeafKind → Bool} {q q' : Bool} (h : Trace K q i nodes q' j) :
    Filled nodes := by
  induction h with
  | done => exact List.forall_mem_nil _
  | skip _ ih => exact ih
  | leaf _ _ _ _ ih => exact filled_cons.2 ⟨filled_leaf _, ih⟩
  | inner _ ne _ ih₁ ih₂ => exact filled_cons.2 ⟨filled_inner.2 ⟨ne, ih₁⟩, ih₂⟩

theorem Traced.filled {K : LeafKind → Bool} {q : Bool} {r : Rule α} {post : α → Bool}
    (h : Traced K q r post) (i : Input) : Filled (r i).nodes := by
  rcases hr : r i with ⟨nodes, e | ⟨a, j⟩⟩
  · obtain ⟨p, j, htrace⟩ := h.error hr
    exact htrace.filled
  · exact (h.ok hr).filled

theorem filled_commentOf (i : Input) : Filled (commentOf i) := by
  unfold commentOf
  split
  · exact List.forall_mem_nil _
  · exact filled_leaf _

theorem filled_recover (h : Filled nodes) (i : Input) (cause : Mismatch) :
    Filled [(recover i nodes cause).1] :=
  filled_inner.2 ⟨by simp, filled_append.2 ⟨h, filled_leaf _⟩⟩

theorem IsStatement.filled (h : IsStatement i node j) : Filled [node] := by
  induction h with
  | plain h _ ne => exact filled_inner.2 ⟨ne, h.filled⟩
  | pointer _ _ h =>
    exact filled_inner.2 ⟨List.cons_ne_nil _ _, filled_cons.2 ⟨filled_leaf _, h.filled⟩⟩
  | remark =>
    exact filled_inner.2
      ⟨List.cons_ne_nil _ _, filled_cons.2 ⟨filled_leaf _, filled_commentOf _⟩⟩
  | conditional h _ ih => exact filled_inner.2 ⟨by simp, filled_append.2 ⟨h.filled, ih⟩⟩
  | broken h => exact filled_recover h.filled _ _
  | brokenPointer _ _ h => exact filled_recover (filled_cons.2 ⟨filled_leaf _, h.filled⟩) _ _

theorem filled_statementsUpTo (n : Nat) (i : Input) : Filled (statementsUpTo n i) := by
  induction n, i using statementsUpTo_induction with
  | stop => exact List.forall_mem_nil _
  | done => exact List.forall_mem_nil _
  | colon n i rest _ ih => exact filled_cons.2 ⟨filled_leaf _, ih⟩
  | statement n i node j _ hnode _ ih => exact filled_append.2 ⟨hnode.filled, ih⟩

theorem filled_line (row : Int) (text : List Char) : Filled [line row text] := by
  rw [line]
  cases hnumber : Lexeme.lineNumber text with
  | none => exact filled_inner.2 ⟨List.cons_ne_nil _ _, filled_leaf _⟩
  | some pair =>
    exact filled_inner.2
      ⟨List.cons_ne_nil _ _, filled_cons.2 ⟨filled_leaf _, filled_statementsUpTo _ _⟩⟩

end Filled

/-- A statement takes at least one character and ends at a colon or at the end of the line. -/
theorem statement_advances {i : Input} {c : Char} {more : List Char} (h : i.rest = c :: more)
    (hcolon : c ≠ ':') (hgap : Text.isGap c = false) :
    ∃ text, text ≠ [] ∧ Passes i text (statement i).2 ∧
      endsStatement (statement i).2.rest = true := by
  have hskip : i.skip = i := skip_of_head (by simpa [h] using hgap)
  have hstatement := isStatement_statement i
  rw [hskip] at hstatement
  obtain ⟨text, hpasses⟩ := hstatement.passes
  refine ⟨text, ?_, hpasses, hstatement.ends⟩
  rintro rfl
  have hends := hstatement.ends
  rw [← List.nil_append (statement i).2.rest, ← hpasses.rest, h] at hends
  exact hcolon (by simpa [endsStatement] using hends)

/-- The rule for expressions, with limited room or without a limit. -/
def IsExpression (e : Rule DataType) : Prop := e = expression ∨ ∃ calls, e = expressionOn calls

theorem traced_expressionOn (calls : Nat) :
    Traced inExpression true (expressionOn calls) (fun _ => false) := by
  induction calls using Nat.strong_induction_on with
  | h calls ih =>
    match calls with
    | 0 | 1 | 2 | 3 => exact .stop _
    | calls + 4 =>
      have hnear := ih (calls + 1) (by omega)
      have hfar := ih calls (by omega)
      exact traced_operandsOf (traced_operandOf (traced_primaryOf hfar hnear))

theorem IsExpression.traced {e : Rule DataType} (h : IsExpression e) :
    Traced inExpression true e (fun _ => false) := by
  obtain rfl | ⟨calls, rfl⟩ := h
  · exact traced_expression_only
  · exact traced_expressionOn calls

end Grammar

end IntegerBasic
