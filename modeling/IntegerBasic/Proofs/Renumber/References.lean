import IntegerBasic.Proofs.Grammar.Places
import IntegerBasic.Proofs.Tree.Traversal
import IntegerBasic.Renumber

/-!
# Where references stand

The references of a program are some of its leaves, in their order. In a line they stand one
behind the other, each begins with a digit, and each covers the text it was read from. This holds
in broken lines too.
-/

namespace IntegerBasic.Renumber

open Grammar

/-- The leaf that sits here, if it refers to a line. -/
def reference? (seat : Seat) : Option Leaf :=
  match seat.node with
  | .leaf l => if isSecondary seat l.kind then some l else none
  | .inner _ _ => none

/-- The leaves among some siblings and below them that refer to lines. -/
def references (left nodes : List Node) : List Leaf := (seats left nodes).filterMap reference?

@[simp] theorem references_nil (left : List Node) : references left [] = [] := by
  simp [references, seats]

theorem references_leaf (left right : List Node) (l : Leaf) :
    references left (.leaf l :: right) =
      (if isSecondary ⟨.leaf l, left, right⟩ l.kind then [l] else []) ++
        references (.leaf l :: left) right := by
  have hseat : reference? ⟨.leaf l, left, right⟩ =
      if isSecondary ⟨.leaf l, left, right⟩ l.kind then some l else none := rfl
  rw [references, seats, Node.children, seats, List.nil_append, List.filterMap_cons, hseat]
  by_cases h : isSecondary ⟨.leaf l, left, right⟩ l.kind = true
  · rw [if_pos h, if_pos h]
    rfl
  · rw [if_neg h, if_neg h]
    rfl

theorem references_inner (left right : List Node) (label : Label) (children : List Node) :
    references left (.inner label children :: right) =
      references [] children ++ references (.inner label children :: left) right := by
  rw [references, seats, Node.children, List.filterMap_cons, List.filterMap_append]
  rfl

theorem tour_secondaryAt (left nodes : List Node) (found : List Reference) :
    tour secondaryAt left nodes found =
      ((references left nodes).mapM Reference.ofLeaf).map fun refs => (false, found ++ refs) := by
  induction nodes using siblings_induction generalizing left found with
  | nil => simp [tour, Except.map, pure, Except.pure]
  | cons node right children_ih right_ih =>
    cases node with
    | leaf l =>
      rw [references_leaf]
      by_cases h : isSecondary ⟨.leaf l, left, right⟩ l.kind = true
      · rw [if_pos h, List.singleton_append, List.mapM_cons]
        cases hread : Reference.ofLeaf l with
        | error e =>
          have hvisit : secondaryAt ⟨.leaf l, left, right⟩ found = .error e := by
            rw [secondaryAt]
            simp only [h, if_true, hread]
            rfl
          rw [tour, hvisit]
          rfl
        | ok r =>
          have hvisit : secondaryAt ⟨.leaf l, left, right⟩ found =
              .ok (.sibling, found ++ [r]) := by
            rw [secondaryAt]
            simp only [h, if_true, hread]
            rfl
          rw [tour, hvisit]
          dsimp only
          rw [right_ih _ _]
          cases (references (.leaf l :: left) right).mapM Reference.ofLeaf with
          | error e => rfl
          | ok refs => simp [Except.map, bind, Except.bind, pure, Except.pure]
      · have hvisit : secondaryAt ⟨.leaf l, left, right⟩ found = .ok (.child, found) := by
          rw [secondaryAt]
          simp only [h]
          rfl
        rw [if_neg h, List.nil_append, tour, hvisit]
        exact right_ih _ _
    | inner label children =>
      have hchildren := children_ih [] found
      rw [Node.children] at hchildren
      have hvisit : secondaryAt ⟨.inner label children, left, right⟩ found =
          .ok (.child, found) := rfl
      rw [references_inner, tour, hvisit, List.mapM_append]
      dsimp only
      rw [hchildren]
      cases (references [] children).mapM Reference.ofLeaf with
      | error e => rfl
      | ok refs =>
        dsimp only [Except.map]
        rw [right_ih _ _]
        cases (references (.inner label children :: left) right).mapM Reference.ofLeaf with
        | error e => rfl
        | ok refs' => simp [Except.map, bind, Except.bind, pure, Except.pure]

/-- The references that a survey finds are read from their leaves. -/
theorem secondaries_eq (tree : Node) :
    secondaries tree = (references [] tree.children).mapM Reference.ofLeaf := by
  rw [secondaries, survey_eq_tour, tour_secondaryAt]
  cases (references [] tree.children).mapM Reference.ofLeaf <;> rfl

theorem references_append (left xs ys : List Node) :
    references left (xs ++ ys) = references left xs ++ references (xs.reverse ++ left) ys :=
  filterMap_seats_append (fun _ _ _ => rfl) left xs ys

theorem kind_of_isSecondary {seat : Seat} {kind : LeafKind} (h : isSecondary seat kind = true) :
    kind = .integer ∨ kind = .lineArgument := by
  cases kind <;> simp_all [isSecondary]

/-- A leaf that is no number refers to no line. -/
theorem references_of_not_number {l : Leaf} (h : l.kind.isNumber = false) (left right : List Node) :
    references left (.leaf l :: right) = references (.leaf l :: left) right := by
  rw [references_leaf, if_neg, List.nil_append]
  cases hkind : l.kind <;> simp_all [isSecondary, LeafKind.isNumber]

inductive Spread : Input → List Leaf → Input → Prop
  | done {i : Input} : Spread i [] i
  | pass {i k j : Input} {text : List Char} {leaves : List Leaf} (h : Passes i text k)
      (more : Spread k leaves j) : Spread i leaves j
  | number {i j : Input} {kind : LeafKind} {text rest : List Char} {leaves : List Leaf}
      (read : Lexeme.integer i.rest = some (text, rest))
      (more : Spread (i.after text rest) leaves j) :
      Spread i (⟨kind, text, ⟨i.point, ⟨i.row, i.col + text.length⟩⟩⟩ :: leaves) j

namespace Spread

theorem append {i k j : Input} {xs ys : List Leaf} (hx : Spread i xs k) (hy : Spread k ys j) :
    Spread i (xs ++ ys) j := by
  induction hx with
  | done => exact hy
  | pass h _ ih => exact .pass h (ih hy)
  | number read _ ih => exact .number read (ih hy)

theorem of_passes {i j : Input} {text : List Char} (h : Passes i text j) : Spread i [] j :=
  .pass h .done

/-- The references of a trace are spread over it. -/
theorem of_trace {K : LeafKind → Bool} {q q' : Bool} {i j : Input} {nodes : List Node}
    (h : Trace K q i nodes q' j) (left : List Node) : Spread i (references left nodes) j := by
  induction h generalizing left with
  | done =>
    rw [references_nil]
    exact .done
  | skip _ ih => exact .pass (.skip _) (ih left)
  | @leaf q q' i j kind text rest nodes _ read _ _ ih =>
    rw [Input.leaf, references_leaf]
    split
    · have hinteger : Lexeme.integer i.rest = some (text, rest) := by
        have hkind := kind_of_isSecondary ‹_›
        cases read <;> simp_all
      exact .number hinteger (ih _)
    · exact .pass (.after read.append.symm) (ih _)
  | inner _ _ _ ih₁ ih₂ =>
    rw [Input.enclose, references_inner]
    exact (ih₁ []).append (ih₂ _)

end Spread

theorem exists_of_isBranch {node : Node} (h : isBranch node = true) :
    ∃ t, (t = .goto ∨ t = .gosub ∨ t = .thenLine) ∧ node.token? = some t := by
  unfold isBranch at h
  split at h
  · exact ⟨_, .inl rfl, ‹_›⟩
  · exact ⟨_, .inr (.inl rfl), ‹_›⟩
  · exact ⟨_, .inr (.inr rfl), ‹_›⟩
  · cases h

theorem isBranch_of_inExpression {l : Leaf} (h : inExpression l.kind = true) :
    isBranch (.leaf l) = false := by
  rw [Bool.eq_false_iff]
  intro hbranch
  obtain ⟨t, ht, htoken⟩ := exists_of_isBranch hbranch
  obtain ⟨text, span, hl⟩ := Node.exists_of_token? htoken
  cases hl
  rcases ht with rfl | rfl | rfl <;> cases h

/-- There are no references among the leaves of an expression behind a word that is no branch. -/
theorem references_of_expression {q q' : Bool} {i j : Input} {nodes : List Node}
    (h : Trace inExpression q i nodes q' j) {left : List Node}
    (hleft : left.head?.any isBranch = false) : references left nodes = [] := by
  induction h generalizing left with
  | done => exact references_nil _
  | skip _ ih => exact ih hleft
  | @leaf q q' i j kind text rest nodes known read _ _ ih =>
    have hbranch : isBranch (i.leaf kind text) = false := isBranch_of_inExpression known
    have hsecondary : isSecondary ⟨i.leaf kind text, left, nodes⟩ kind = false := by
      cases kind with
      | integer => exact hleft
      | lineArgument => cases known
      | _ => rfl
    rw [Input.leaf] at hsecondary hbranch ⊢
    rw [references_leaf, if_neg (Bool.eq_false_iff.1 hsecondary), List.nil_append]
    exact ih hbranch
  | inner _ _ _ ih₁ ih₂ =>
    rw [Input.enclose, references_inner, ih₁ rfl, ih₂ rfl]
    rfl

theorem references_commentOf (left : List Node) (i : Input) : references left (commentOf i) = [] := by
  unfold commentOf
  split
  · exact references_nil left
  · rw [Input.leaf, references_of_not_number rfl, references_nil]

theorem isBranch_pointer {i : Input} {t : Token} {text : List Char}
    (ht : t = .himem ∨ t = .lomem) : isBranch (i.leaf (.token t) text) = false := by
  rcases ht with rfl | rfl <;> rfl

/-- What is left of a broken statement holds no reference. -/
theorem references_recover (left : List Node) (i : Input) (nodes : List Node) (cause : Mismatch) :
    references left [(recover i nodes cause).1] = references [] nodes := by
  rw [recover, Input.enclose, references_inner, references_append, references_of_not_number rfl,
    references_nil, references_nil]
  simp

theorem references_statement (left : List Node) (i : Input) (nodes : List Node) :
    references left [i.enclose .statement nodes] = references [] nodes := by
  rw [Input.enclose, references_inner, references_nil, List.append_nil]

/-- The references of a statement are spread over it. -/
theorem Spread.of_isStatement {i j : Input} {node : Node} (h : IsStatement i node j)
    (left : List Node) : Spread i (references left [node]) j := by
  induction h generalizing left with
  | plain h _ =>
    rw [references_statement]
    exact .of_trace h []
  | pointer _ read h _ =>
    rw [references_statement, Input.leaf, references_of_not_number rfl]
    exact .pass (.after (Lexeme.append_of_word read).symm) (.of_trace h _)
  | @remark i text rest read =>
    have hend : Passes (i.after text rest) rest ((i.after text rest).after rest []) :=
      .after (List.append_nil _).symm
    rw [references_statement, Input.leaf, references_of_not_number rfl, references_commentOf]
    exact .pass (.after (Lexeme.append_of_word read).symm) (.of_passes hend)
  | conditional h _ ih =>
    rw [references_statement, references_append]
    exact (of_trace h []).append (ih _)
  | @broken i j nodes p cause h =>
    obtain ⟨text, hrest⟩ := h.passes_recover nodes cause
    rw [references_recover]
    simpa using (of_trace h []).append (of_passes hrest)
  | @brokenPointer i j t text rest nodes p cause ht read h =>
    -- the colon of the word may end the statement, but no reference stands behind it
    have hnone : references [i.leaf (.token t) text] nodes = [] :=
      references_of_expression h (isBranch_pointer ht)
    rw [references_recover, Input.leaf, references_of_not_number rfl]
    rw [Input.leaf] at hnone
    rw [hnone]
    exact .of_passes (passes_recover i _ cause)

theorem Spread.of_statementsUpTo (n : Nat) (i : Input) (left : List Node) :
    ∃ j, Spread i (references left (statementsUpTo n i)) j := by
  induction n, i using statementsUpTo_induction generalizing left with
  | stop i => exact ⟨i, by rw [references_nil]; exact .done⟩
  | done n i _ => exact ⟨i, by rw [references_nil]; exact .done⟩
  | colon n i rest hrest ih =>
    obtain ⟨j, hj⟩ := ih (i.skip.leaf (.token .colon) [':'] :: left)
    refine ⟨j, ?_⟩
    rw [Input.leaf, references_of_not_number rfl]
    exact .pass (.skip i) (.pass (.after hrest) hj)
  | statement n i node j _ hnode _ ih =>
    have hspread := of_isStatement hnode left
    obtain ⟨k, hk⟩ := ih (node :: left)
    refine ⟨k, .pass (.skip i) ?_⟩
    rw [← List.singleton_append, references_append]
    exact hspread.append hk

end IntegerBasic.Renumber
