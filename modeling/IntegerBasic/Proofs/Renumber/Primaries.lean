import IntegerBasic.Proofs.Grammar.Numbers
import IntegerBasic.Proofs.Renumber.References

/-!
# The numbers of the lines

The primary numbers of a program are those of its lines, in the order of the rows. A line has one
exactly if a number stands at its front, behind spaces and tabs. The guards are found by another
reader, which finds the same numbers in lines that have one.
-/

namespace IntegerBasic

namespace Grammar

theorem Reads.ne_lineNumber {kind : LeafKind} {s text rest : List Char}
    (h : Reads kind s text rest) : kind ≠ .lineNumber := by
  cases h <;> simp

def Unnumbered (nodes : List Node) : Prop :=
  ∀ l ∈ Node.leavesOf nodes, l.kind ≠ .lineNumber

theorem unnumbered_append {xs ys : List Node} (hx : Unnumbered xs) (hy : Unnumbered ys) :
    Unnumbered (xs ++ ys) := by
  intro l hl
  rw [Node.leavesOf_append] at hl
  rcases List.mem_append.1 hl with hl | hl
  · exact hx l hl
  · exact hy l hl

theorem unnumbered_leaf {l : Leaf} (h : l.kind ≠ .lineNumber) : Unnumbered [.leaf l] := by
  intro l' hl
  have heq : l' = l := by simpa using hl
  rwa [heq]

theorem unnumbered_inner {label : Label} {children : List Node} (h : Unnumbered children) :
    Unnumbered [.inner label children] := by
  intro l hl
  exact h l (by simpa using hl)

theorem Trace.unnumbered {K : LeafKind → Bool} {q q' : Bool} {i j : Input} {nodes : List Node}
    (h : Trace K q i nodes q' j) : Unnumbered nodes := by
  induction h with
  | done => simp [Unnumbered]
  | skip _ ih => exact ih
  | leaf _ read _ _ ih => exact unnumbered_append (unnumbered_leaf read.ne_lineNumber) ih
  | inner _ _ _ ih₁ ih₂ => exact unnumbered_append (unnumbered_inner ih₁) ih₂

theorem unnumbered_token {i : Input} {t : Token} {text : List Char} {nodes : List Node}
    (h : Unnumbered nodes) : Unnumbered (i.leaf (.token t) text :: nodes) :=
  unnumbered_append (unnumbered_leaf (by simp)) h

theorem unnumbered_commentOf (i : Input) : Unnumbered (commentOf i) := by
  unfold commentOf
  split
  · simp [Unnumbered]
  · exact unnumbered_leaf (by simp)

theorem unnumbered_recover {nodes : List Node} (h : Unnumbered nodes) (i : Input)
    (cause : Mismatch) : Unnumbered [(recover i nodes cause).1] :=
  unnumbered_inner (unnumbered_append h (unnumbered_leaf (by simp)))

theorem IsStatement.unnumbered {i j : Input} {node : Node} (h : IsStatement i node j) :
    Unnumbered [node] := by
  induction h with
  | plain h => exact unnumbered_inner h.unnumbered
  | pointer _ _ h => exact unnumbered_inner (unnumbered_token h.unnumbered)
  | remark => exact unnumbered_inner (unnumbered_token (unnumbered_commentOf _))
  | conditional h _ ih => exact unnumbered_inner (unnumbered_append h.unnumbered ih)
  | broken h => exact unnumbered_recover h.unnumbered _ _
  | brokenPointer _ _ h => exact unnumbered_recover (unnumbered_token h.unnumbered) _ _

theorem unnumbered_statementsUpTo (n : Nat) (i : Input) : Unnumbered (statementsUpTo n i) := by
  induction n, i using statementsUpTo_induction with
  | stop => simp [Unnumbered]
  | done => simp [Unnumbered]
  | colon n i rest _ ih => exact unnumbered_token ih
  | statement n i node j _ hnode _ ih => exact unnumbered_append hnode.unnumbered ih

end Grammar

namespace Renumber

open Grammar

def primaryLeaf? (row : Int) (line : List Char) : Option Leaf :=
  (Lexeme.lineNumber line).map fun (number, _) =>
    ⟨.lineNumber, number, ⟨⟨row, 0⟩, ⟨row, number.length⟩⟩⟩

/-- The numbers of the lines of a text as leaves. -/
def primaryLeaves (lines : List (List Char)) (first : Nat) : List Leaf :=
  (lines.zipIdx first).filterMap fun (line, row) => primaryLeaf? row line

theorem filter_line_leaves (row : Int) (text : List Char) :
    (line row text).leaves.filter (·.kind == .lineNumber) = (primaryLeaf? row text).toList := by
  unfold line primaryLeaf?
  cases h : Lexeme.lineNumber text with
  | none => simp [unnumbered]
  | some pair =>
    obtain ⟨number, rest⟩ := pair
    have hnone : (Node.leavesOf (statements ((⟨row, 0, text⟩ : Input).after number rest))).filter
        (·.kind == .lineNumber) = [] := by
      rw [List.filter_eq_nil_iff]
      intro l hl
      simpa using unnumbered_statementsUpTo _ _ l hl
    simp [Input.leaf, Input.point, hnone]

theorem lineNumber_of_isBlankText {line : List Char} (h : Text.isBlankText line = true) :
    Lexeme.lineNumber line = none := by
  cases hn : Lexeme.lineNumber line with
  | none => rfl
  | some pair =>
    obtain ⟨number, rest⟩ := pair
    obtain ⟨gaps, text, rfl, -, htext, -, rfl⟩ := Lexeme.lineNumber_some hn
    obtain ⟨c, more, rfl, hc⟩ := htext.head
    have hblank : Text.isBlank c = true := List.all_eq_true.1 h c (by simp)
    rw [Text.isBlank_of_isDigit hc] at hblank
    cases hblank

theorem leavesOf_map {α : Type} (f : α → Node) (xs : List α) :
    Node.leavesOf (xs.map f) = xs.flatMap fun x => (f x).leaves := by
  induction xs with
  | nil => rfl
  | cons x xs ih => simp [ih]

/-- A blank line has no number, so nothing is lost when the rows are gone through without them. -/
theorem flatMap_primaryLeaf? (text : List Char) :
    (numberedRows text).flatMap (fun (row, s) => (primaryLeaf? row s).toList) =
      primaryLeaves (Text.lines text) 0 := by
  have hblank : ∀ xs : List (List Char × Nat),
      ((xs.map fun p => (p.2, p.1)).filter fun p => !Text.isBlankText p.2).flatMap
          (fun p => (primaryLeaf? p.1 p.2).toList) =
        xs.filterMap fun p => primaryLeaf? p.2 p.1 := by
    intro xs
    induction xs with
    | nil => rfl
    | cons x xs ih =>
      obtain ⟨s, row⟩ := x
      cases hs : Text.isBlankText s with
      | true => simp_all [primaryLeaf?, lineNumber_of_isBlankText hs]
      | false =>
        cases hleaf : primaryLeaf? row s <;> simp_all
  exact hblank _

/-- The leaves that number lines in the tree of a program. -/
theorem filter_program_leaves (text : List Char) :
    (program text).leaves.filter (·.kind == .lineNumber) =
      primaryLeaves (Text.lines text) 0 := by
  have hleaves : (program text).leaves =
      (numberedRows text).flatMap fun p => (line p.1 p.2).leaves := leavesOf_map _ _
  rw [hleaves, List.filter_flatMap]
  simp only [filter_line_leaves]
  exact flatMap_primaryLeaf? text

theorem primaries_eq (text : List Char) :
    primaries (program text) = (primaryLeaves (Text.lines text) 0).mapM Reference.ofLeaf := by
  rw [primaries, filter_program_leaves]

def lineReferences (row : Int) (s : List Char) : List Leaf := references [] (line row s).children

theorem lineReferences_of_none {row : Int} {s : List Char} (h : Lexeme.lineNumber s = none) :
    lineReferences row s = [] := by
  rw [lineReferences, line, h]
  exact (references_of_not_number rfl [] []).trans (references_nil _)

/-- The references of a numbered line are spread over what follows its number. -/
theorem spread_lineReferences (row : Int) {s number rest : List Char}
    (h : Lexeme.lineNumber s = some (number, rest)) :
    ∃ j, Spread ⟨row, number.length, rest⟩ (lineReferences row s) j := by
  have hplace : (⟨row, 0, s⟩ : Input).after number rest = ⟨row, number.length, rest⟩ := by
    simp [Input.after]
  rw [lineReferences, line, h]
  dsimp only [Node.children]
  rw [Input.leaf, references_leaf, if_neg (by simp [isSecondary]), List.nil_append, hplace]
  exact Spread.of_statementsUpTo _ _ _

theorem references_of_inner (left : List Node) (nodes : List Node)
    (h : ∀ node ∈ nodes, ∃ label children, node = .inner label children) :
    references left nodes = nodes.flatMap fun node => references [] node.children := by
  induction nodes generalizing left with
  | nil => exact references_nil left
  | cons node nodes ih =>
    obtain ⟨label, children, rfl⟩ := h node List.mem_cons_self
    rw [references_inner, ih _ fun x hx => h x (List.mem_cons_of_mem _ hx)]
    rfl

/-- The references of a program are those of its lines. -/
theorem references_program (text : List Char) :
    references [] (program text).children =
      (Text.lines text).zipIdx.flatMap fun (s, row) => lineReferences row s := by
  have hinner : ∀ node ∈ (program text).children,
      ∃ label children, node = .inner label children := by
    intro node hnode
    obtain ⟨⟨row, s⟩, -, rfl⟩ := List.mem_map.1 hnode
    exact ⟨_, _, rfl⟩
  have hblank : ∀ xs : List (List Char × Nat),
      ((xs.map fun p => (p.2, p.1)).filter fun p => !Text.isBlankText p.2).flatMap
          (fun p => lineReferences p.1 p.2) =
        xs.flatMap fun p => lineReferences p.2 p.1 := by
    intro xs
    induction xs with
    | nil => rfl
    | cons x xs ih =>
      obtain ⟨s, row⟩ := x
      cases hs : Text.isBlankText s with
      | true => simp_all [lineReferences_of_none (lineNumber_of_isBlankText hs)]
      | false => simp_all
  rw [references_of_inner _ _ hinner]
  show ((numberedRows text).map _).flatMap _ = _
  rw [List.flatMap_map]
  exact hblank _

end Renumber

end IntegerBasic
