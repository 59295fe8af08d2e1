import IntegerBasic.Proofs.Grammar.StatementTraces

/-!
# Where error leaves stand

An error leaf holds what is left over of a statement or a line. So it comes last among its
siblings, and no family has more than one.
-/

namespace IntegerBasic

@[simp] theorem Node.isError_leaf (l : Leaf) : (Node.leaf l).isError = l.kind.isError := rfl
@[simp] theorem Node.isError_inner (label : Label) (children : List Node) :
    (Node.inner label children).isError = false := rfl

/-- An error leaf is the last of these siblings, and of the siblings on every level below. -/
inductive ErrorsLast : List Node → Prop
  | nil : ErrorsLast []
  | leaf {l : Leaf} {right : List Node} (last : l.kind.isError = true → right = [])
      (h : ErrorsLast right) : ErrorsLast (.leaf l :: right)
  | inner {label : Label} {children right : List Node} (within : ErrorsLast children)
      (h : ErrorsLast right) : ErrorsLast (.inner label children :: right)

namespace ErrorsLast

theorem right {node : Node} {nodes : List Node} (h : ErrorsLast (node :: nodes)) :
    ErrorsLast nodes := by
  cases h <;> assumption

theorem children {node : Node} {nodes : List Node} (h : ErrorsLast (node :: nodes)) :
    ErrorsLast node.children := by
  cases h with
  | leaf => exact .nil
  | inner within => exact within

/-- More siblings can follow where no sibling is an error. -/
theorem append {xs ys : List Node} (hx : ErrorsLast xs) (hy : ErrorsLast ys)
    (sound : ∀ x ∈ xs, x.isError = false) : ErrorsLast (xs ++ ys) := by
  induction hx with
  | nil => exact hy
  | @leaf l right _ _ ih =>
    have hl : l.kind.isError = false := sound _ List.mem_cons_self
    exact .leaf (by simp [hl]) (ih fun x hx => sound x (List.mem_cons_of_mem _ hx))
  | inner within _ _ ih =>
    exact .inner within (ih fun x hx => sound x (List.mem_cons_of_mem _ hx))

/-- Inner nodes may stand in any order. -/
theorem of_inner {nodes : List Node}
    (h : ∀ node ∈ nodes, ∃ label children, node = .inner label children ∧ ErrorsLast children) :
    ErrorsLast nodes := by
  induction nodes with
  | nil => exact .nil
  | cons node nodes ih =>
    obtain ⟨label, children, rfl, hc⟩ := h node List.mem_cons_self
    exact .inner hc (ih fun x hx => h x (List.mem_cons_of_mem _ hx))

end ErrorsLast

namespace Grammar

/-- A node that is not an error itself and has its error leaves in the last places. -/
def Composed (node : Node) : Prop := node.isError = false ∧ ErrorsLast [node]

theorem composed_inner {label : Label} {children : List Node} (h : ErrorsLast children) :
    Composed (.inner label children) :=
  ⟨rfl, .inner h .nil⟩

/-- No node of a trace is an error, on any level. -/
theorem Trace.errorsLast {K : LeafKind → Bool} {q q' : Bool} {i j : Input} {nodes : List Node}
    (h : Trace K q i nodes q' j) : ErrorsLast nodes ∧ ∀ node ∈ nodes, node.isError = false := by
  induction h with
  | done => exact ⟨.nil, by simp⟩
  | skip _ ih => exact ih
  | leaf _ read _ _ ih =>
    have herror := read.isError_eq_false
    refine ⟨.leaf (by simp [herror]) ih.1, ?_⟩
    rintro node (_ | ⟨_, hnode⟩)
    · exact herror
    · exact ih.2 node hnode
  | inner _ _ _ ih₁ ih₂ =>
    refine ⟨.inner ih₁.1 ih₂.1, ?_⟩
    rintro node (_ | ⟨_, hnode⟩)
    · rfl
    · exact ih₂.2 node hnode

/-- One error leaf can stand behind a trace. -/
theorem Trace.errorsLast_append {K : LeafKind → Bool} {q q' : Bool} {i j : Input} {nodes : List Node}
    (h : Trace K q i nodes q' j) (l : Leaf) : ErrorsLast (nodes ++ [.leaf l]) :=
  h.errorsLast.1.append (.leaf (fun _ => rfl) .nil) h.errorsLast.2

theorem errorsLast_token {i : Input} {t : Token} {text : List Char} {nodes : List Node}
    (h : ErrorsLast nodes) : ErrorsLast (i.leaf (.token t) text :: nodes) :=
  .leaf (by simp [LeafKind.isError]) h

theorem errorsLast_commentOf (i : Input) : ErrorsLast (commentOf i) := by
  unfold commentOf
  split
  · exact .nil
  · exact .leaf (by simp [LeafKind.isError]) .nil

theorem IsStatement.composed {i j : Input} {node : Node} (h : IsStatement i node j) :
    Composed node := by
  induction h with
  | plain h => exact composed_inner h.errorsLast.1
  | pointer _ _ h => exact composed_inner (errorsLast_token h.errorsLast.1)
  | remark => exact composed_inner (errorsLast_token (errorsLast_commentOf _))
  | conditional h _ ih => exact composed_inner (h.errorsLast.1.append ih.2 h.errorsLast.2)
  | broken h => exact composed_inner (h.errorsLast_append _)
  | brokenPointer _ _ h => exact composed_inner (errorsLast_token (h.errorsLast_append _))

theorem errorsLast_statementsUpTo (n : Nat) (i : Input) : ErrorsLast (statementsUpTo n i) := by
  induction n, i using statementsUpTo_induction with
  | stop => exact .nil
  | done => exact .nil
  | colon n i rest _ ih => exact .leaf (by simp [LeafKind.isError]) ih
  | statement n i node j _ hnode _ ih =>
    obtain ⟨herror, hlast⟩ := hnode.composed
    exact hlast.append ih (by simpa using herror)

theorem errorsLast_line (row : Int) (text : List Char) :
    ErrorsLast (line row text).children := by
  unfold line Node.children
  cases Lexeme.lineNumber text with
  | none => exact .leaf (fun _ => rfl) .nil
  | some pair => exact .leaf (by simp [LeafKind.isError]) (errorsLast_statementsUpTo _ _)

/-- In the tree of a program an error leaf comes last among its siblings. -/
theorem errorsLast_program (text : List Char) : ErrorsLast (program text).children := by
  apply ErrorsLast.of_inner
  intro node hnode
  obtain ⟨⟨row, s⟩, -, rfl⟩ := List.mem_map.1 hnode
  exact ⟨_, _, rfl, errorsLast_line row s⟩

end Grammar

end IntegerBasic
