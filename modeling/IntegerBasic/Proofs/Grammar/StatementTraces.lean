import IntegerBasic.Proofs.Grammar.RuleTraces

/-!
# What a statement is

A statement is sound, and then its nodes are read up to a colon or the end of the line. Or it is
broken, and then an error leaf stands behind the trace of a rule that was stopped. The relation
`IsStatement` lists the cases. What holds in each of them holds of every statement, however deep
statements are nested.
-/

namespace IntegerBasic.Grammar

open Rule

variable {α : Type}

/-- A whole statement is what its rule has read, up to the end of the statement. -/
theorem whole_ok {r : Rule α} {i j : Input} {nodes : List Node}
    (h : whole r i = ⟨nodes, .ok ((), j)⟩) :
    ∃ a k, r i = ⟨nodes, .ok (a, k)⟩ ∧ j = k.skip ∧ endsStatement j.rest = true := by
  obtain ⟨xs, a, k, ys, hr, hend, rfl⟩ := bind_ok h
  obtain ⟨zs, isEnd, l, ws, hl, hf, rfl⟩ := bind_ok hend
  rw [atEnd_eq] at hl
  cases hl
  cases hc : endsStatement k.skip.rest with
  | false =>
    rw [hc] at hf
    cases hf
  | true =>
    rw [hc] at hf
    cases hf
    exact ⟨a, k, by simpa using hr, rfl, hc⟩

/-- A rule for a whole statement is stopped with its rule, or by what follows it. -/
theorem whole_error {r : Rule α} {i : Input} {nodes : List Node} {e : Mismatch}
    (h : whole r i = ⟨nodes, .error e⟩) :
    r i = ⟨nodes, .error e⟩ ∨
      ∃ a k, r i = ⟨nodes, .ok (a, k)⟩ ∧ endsStatement k.skip.rest = false := by
  rcases bind_error h with h | ⟨xs, a, k, ys, hr, hend, rfl⟩
  · exact .inl h
  · right
    rcases bind_error hend with hl | ⟨zs, isEnd, l, ws, hl, hf, rfl⟩
    · cases hl
    · rw [atEnd_eq] at hl
      cases hl
      cases hc : endsStatement k.skip.rest with
      | true =>
        rw [hc] at hf
        cases hf
      | false =>
        rw [hc] at hf
        cases hf
        exact ⟨a, k, by simpa using hr, hc⟩

/-- Where no gap comes next there is none to pass. -/
theorem skip_of_head {i : Input} (h : ∀ c ∈ i.rest.head?, Text.isGap c = false) : i.skip = i := by
  obtain ⟨row, col, rest⟩ := i
  cases rest with
  | nil => rfl
  | cons c rest =>
    have hc : Text.isGap c = false := h c rfl
    simp [Input.skip, Input.after, hc]

@[simp] theorem skip_skip (i : Input) : i.skip.skip = i.skip := by
  apply skip_of_head
  intro c hc
  have := List.head?_dropWhile_not Text.isGap i.rest
  rw [show i.skip.rest = i.rest.dropWhile Text.isGap from rfl] at hc
  rwa [hc] at this

/-- Where a statement can end there are no gaps to pass. -/
theorem skip_of_endsStatement {i : Input} (h : endsStatement i.rest = true) : i.skip = i := by
  apply skip_of_head
  intro c hc
  rw [endsStatement, hc] at h
  have hcolon : c = ':' := by simpa using h
  rw [hcolon]
  rfl

theorem leaves_enclose (i : Input) (kind : InnerKind) (nodes : List Node) :
    (i.enclose kind nodes).leaves = Node.leavesOf nodes := by
  rw [Input.enclose, Node.leaves_inner]

def commentOf (i : Input) : List Node :=
  if i.rest.isEmpty then [] else [i.leaf .comment i.rest]

inductive IsStatement : Input → Node → Input → Prop
  | plain {i j : Input} {nodes : List Node} (h : Trace anywhere true i nodes false j)
      (ends : endsStatement j.rest = true) (ne : nodes ≠ []) :
      IsStatement i (i.enclose .statement nodes) j
  /-- A word that sets a pointer, which has a colon in its spelling. -/
  | pointer {i j : Input} {t : Token} {text rest : List Char} {nodes : List Node}
      (ht : t = .himem ∨ t = .lomem)
      (read : Lexeme.word t.spelling.toList i.rest = some (text, rest))
      (h : Trace inExpression true (i.after text rest) nodes false j)
      (ends : endsStatement j.rest = true) :
      IsStatement i (i.enclose .statement (i.leaf (.token t) text :: nodes)) j
  | remark {i : Input} {text rest : List Char}
      (read : Lexeme.word Token.rem.spelling.toList i.rest = some (text, rest)) :
      IsStatement i
        (i.enclose .statement (i.leaf (.token .rem) text :: commentOf (i.after text rest)))
        ((i.after text rest).after rest [])
  | conditional {i k j : Input} {nodes : List Node} {node : Node}
      (h : Trace anywhere true i nodes true k) (nested : IsStatement k node j) :
      IsStatement i (i.enclose .statement (nodes ++ [node])) j
  | broken {i j : Input} {nodes : List Node} {p : Bool} {cause : Mismatch}
      (h : Trace anywhere true i nodes p j) :
      IsStatement i (recover i nodes cause).1 (recover i nodes cause).2
  | brokenPointer {i j : Input} {t : Token} {text rest : List Char} {nodes : List Node} {p : Bool}
      {cause : Mismatch} (ht : t = .himem ∨ t = .lomem)
      (read : Lexeme.word t.spelling.toList i.rest = some (text, rest))
      (h : Trace inExpression true (i.after text rest) nodes p j) :
      IsStatement i (recover i (i.leaf (.token t) text :: nodes) cause).1
        (recover i (i.leaf (.token t) text :: nodes) cause).2

/-- A statement's text is followed by a colon or nothing. -/
theorem endsStatement_drop_statementText (quoted : Bool) (s : List Char) :
    endsStatement (s.drop (statementText quoted s).length) = true := by
  induction s generalizing quoted with
  | nil => rfl
  | cons c rest ih =>
    rw [statementText]
    by_cases h : (c == ':' && !quoted) = true
    · have hc : c = ':' := by simpa using (Bool.and_eq_true_iff.1 h).1
      rw [if_pos h, hc]
      rfl
    · rw [if_neg h]
      exact ih _

theorem endsStatement_recover (i : Input) (nodes : List Node) (cause : Mismatch) :
    endsStatement (recover i nodes cause).2.rest = true :=
  endsStatement_drop_statementText false i.rest

theorem hasError_of_mem {nodes : List Node} {node : Node}
    (sound : (Node.leavesOf nodes).any (·.kind.isError) = false) (h : node ∈ nodes) :
    node.hasError = false := by
  induction nodes with
  | nil => cases h
  | cons first more ih =>
    rw [Node.leavesOf_cons, List.any_append, Bool.or_eq_false_iff] at sound
    cases h with
    | head => exact sound.1
    | tail _ h => exact ih sound.2 h

theorem hasError_recover (i : Input) (nodes : List Node) (cause : Mismatch) :
    (recover i nodes cause).1.hasError = true := by
  simp [recover, Input.enclose, Node.hasError, LeafKind.isError]

/-- Behind a statement a colon comes next, or nothing. -/
theorem IsStatement.ends {i j : Input} {node : Node} (h : IsStatement i node j) :
    endsStatement j.rest = true := by
  induction h with
  | plain _ ends => exact ends
  | pointer _ _ _ ends => exact ends
  | remark => rfl
  | conditional _ _ ih => exact ih
  | broken => exact endsStatement_recover _ _ _
  | brokenPointer => exact endsStatement_recover _ _ _

theorem remark_ok {nested : Input → Node × Input} {i k : Input} {nodes : List Node}
    (h : Form.remark.rule nested i = ⟨nodes, .ok ((), k)⟩) :
    ∃ text rest, Lexeme.word Token.rem.spelling.toList i.skip.rest = some (text, rest) ∧
      nodes = i.skip.leaf (.token .rem) text :: commentOf (i.skip.after text rest) ∧
      k = (i.skip.after text rest).after rest [] := by
  obtain ⟨xs, ⟨⟩, j, ys, hx, hy, rfl⟩ := bind_ok h
  obtain ⟨text, rest, hread, rfl, rfl⟩ := expect_ok hx
  refine ⟨text, rest, hread, ?_⟩
  unfold commentOf
  by_cases hempty : (i.skip.after text rest).rest.isEmpty = true
  · rw [if_pos hempty] at hy ⊢
    cases hy
    have hrest : rest = [] := by simpa [Input.after] using hempty
    subst hrest
    exact ⟨rfl, rfl⟩
  · rw [if_neg hempty] at hy ⊢
    cases hy
    exact ⟨rfl, rfl⟩

theorem remark_error {nested : Input → Node × Input} {i : Input} {nodes : List Node}
    {e : Mismatch} (h : Form.remark.rule nested i = ⟨nodes, .error e⟩) : nodes = [] := by
  rcases bind_error h with hx | ⟨xs, ⟨⟩, j, ys, hx, hy, rfl⟩
  · exact expect_error hx
  · split at hy <;> cases hy

/-- A word with an operand: the word and then a trace. -/
theorem single_ok {t : Token} {nested : Input → Node × Input} {i k : Input} {nodes : List Node}
    (h : (Form.single t).rule nested i = ⟨nodes, .ok ((), k)⟩) :
    ∃ text rest more, Lexeme.word t.spelling.toList i.skip.rest = some (text, rest) ∧
      nodes = i.skip.leaf (.token t) text :: more ∧
      Trace inExpression true (i.skip.after text rest) more false k := by
  obtain ⟨xs, ⟨⟩, j, ys, hx, hy, rfl⟩ := bind_ok h
  obtain ⟨text, rest, hread, rfl, rfl⟩ := expect_ok hx
  obtain ⟨zs, type, l, ws, hz, hw, rfl⟩ := bind_ok hy
  cases hw
  exact ⟨text, rest, zs, hread, by simp, traced_expression_only.ok hz⟩

theorem single_error {t : Token} {nested : Input → Node × Input} {i : Input} {nodes : List Node}
    {e : Mismatch} (h : (Form.single t).rule nested i = ⟨nodes, .error e⟩) :
    nodes = [] ∨ ∃ text rest more p k,
      Lexeme.word t.spelling.toList i.skip.rest = some (text, rest) ∧
        nodes = i.skip.leaf (.token t) text :: more ∧
        Trace inExpression true (i.skip.after text rest) more p k := by
  rcases bind_error h with hx | ⟨xs, ⟨⟩, j, ys, hx, hy, rfl⟩
  · exact .inl (expect_error hx)
  · obtain ⟨text, rest, hread, rfl, rfl⟩ := expect_ok hx
    rcases bind_error hy with hz | ⟨zs, type, l, ws, -, hw, -⟩
    · obtain ⟨p, k, htrace⟩ := traced_expression_only.error hz
      exact .inr ⟨text, rest, ys, p, k, hread, rfl, htrace⟩
    · cases hw

section Whole

variable {nested : Input → Node × Input} {i j : Input} {nodes : List Node}
  (skipped : i.skip = i)
include skipped

/-- A form that is read whole is a statement, if what is nested in it is one. -/
theorem isStatement_of_whole {form : Form} (hform : form ∈ Form.all)
    (known : ∀ k, IsStatement k.skip (nested k).1 (nested k).2)
    (h : whole (form.rule nested) i = ⟨nodes, .ok ((), j)⟩) :
    IsStatement i (i.enclose .statement nodes) j := by
  obtain ⟨⟨⟩, k, hr, rfl, hend⟩ := whole_ok h
  have pointer : ∀ {t : Token}, t = .himem ∨ t = .lomem → form = .single t →
      IsStatement i (i.enclose .statement nodes) k.skip := by
    rintro t ht rfl
    obtain ⟨text, rest, more, hread, rfl, htrace⟩ := single_ok hr
    rw [skipped] at hread htrace ⊢
    exact .pointer ht hread htrace.skipped hend
  rcases Form.plain_of_mem hform with plain | hform | hform
  · by_cases hremark : form = .remark
    · subst hremark
      obtain ⟨text, rest, hread, rfl, rfl⟩ := remark_ok hr
      rw [skipped] at hread ⊢
      exact .remark hread
    · by_cases hconditional : form = .conditional
      · subst hconditional
        rcases conditional_ok hr with htrace | ⟨xs, l, htrace, rfl, rfl⟩
        · exact .plain htrace.skipped hend (emits_rule _ _ hr)
        · have hnested := known l.skip
          rw [skip_skip] at hnested
          rw [skip_of_endsStatement hnested.ends]
          exact .conditional htrace hnested
      · exact .plain ((traced_rule plain hremark hconditional nested).ok hr).skipped hend
          (emits_rule _ _ hr)
  · exact pointer (.inl rfl) hform
  · exact pointer (.inr rfl) hform

/-- A form that is not read whole is a broken statement. -/
theorem isStatement_of_whole_error {form : Form} {e : Mismatch} (hform : form ∈ Form.all)
    (known : ∀ k, IsStatement k.skip (nested k).1 (nested k).2)
    (h : whole (form.rule nested) i = ⟨nodes, .error e⟩) (cause : Mismatch) :
    IsStatement i (recover i nodes cause).1 (recover i nodes cause).2 := by
  have pointer : ∀ {t : Token}, t = .himem ∨ t = .lomem → form = .single t →
      IsStatement i (recover i nodes cause).1 (recover i nodes cause).2 := by
    rintro t ht rfl
    rcases whole_error h with hr | ⟨⟨⟩, k, hr, -⟩
    · rcases single_error hr with rfl | ⟨text, rest, more, p, k, hread, rfl, htrace⟩
      · exact .broken (.done id)
      · rw [skipped] at hread htrace ⊢
        exact .brokenPointer ht hread htrace
    · obtain ⟨text, rest, more, hread, rfl, htrace⟩ := single_ok hr
      rw [skipped] at hread htrace ⊢
      exact .brokenPointer ht hread htrace
  rcases Form.plain_of_mem hform with plain | hform | hform
  · by_cases hremark : form = .remark
    · subst hremark
      rcases whole_error h with hr | ⟨⟨⟩, k, hr, hend⟩
      · rw [remark_error hr]
        exact .broken (.done id)
      · obtain ⟨text, rest, hread, -, rfl⟩ := remark_ok hr
        cases hend
    · by_cases hconditional : form = .conditional
      · subst hconditional
        rcases whole_error h with hr | ⟨⟨⟩, k, hr, hend⟩
        · obtain ⟨p, l, htrace⟩ := conditional_error hr
          exact .broken htrace
        · rcases conditional_ok hr with htrace | ⟨xs, l, htrace, rfl, rfl⟩
          · exact .broken htrace
          · have hnested := known l.skip
            rw [skip_of_endsStatement hnested.ends, hnested.ends] at hend
            cases hend
      · have htraced := traced_rule plain hremark hconditional nested
        rcases whole_error h with hr | ⟨⟨⟩, k, hr, -⟩
        · obtain ⟨p, l, htrace⟩ := htraced.error hr
          exact .broken htrace
        · exact .broken (htraced.ok hr)
  · exact pointer (.inl rfl) hform
  · exact pointer (.inr rfl) hform

end Whole

theorem traced_assignmentRule_none : Traced anywhere true (assignmentRule none) (fun _ => false) :=
  traced_assignmentRule none (by rintro t ⟨⟩)

/-- What is read as a statement is one, if what is nested in it is. -/
theorem isStatement_statementWith {nested : Input → Node × Input}
    (known : ∀ k, IsStatement k.skip (nested k).1 (nested k).2) (i : Input) :
    IsStatement i.skip (statementWith nested i).1 (statementWith nested i).2 := by
  have byName : ∀ {nodes j}, whole (assignmentRule none) i.skip = ⟨nodes, .ok ((), j)⟩ →
      IsStatement i.skip (i.skip.enclose .statement nodes) j := by
    intro nodes j h
    obtain ⟨type, k, hr, rfl, hend⟩ := whole_ok h
    exact .plain (traced_assignmentRule_none.ok hr).skipped hend (emits_enclose _ _ hr)
  have notByName : ∀ {nodes e}, whole (assignmentRule none) i.skip = ⟨nodes, .error e⟩ →
      ∃ p j, Trace anywhere true i.skip nodes p j := by
    intro nodes e h
    rcases whole_error h with hr | ⟨type, k, hr, -⟩
    · exact traced_assignmentRule_none.error hr
    · exact ⟨false, k, traced_assignmentRule_none.ok hr⟩
  unfold statementWith settle
  cases hform : Form.ofText? i.skip.rest with
  | none =>
    rw [Option.map_none]
    rcases hname : whole (assignmentRule none) i.skip with ⟨nodes, e | ⟨⟨⟩, j⟩⟩
    · obtain ⟨p, j, htrace⟩ := notByName hname
      exact .broken htrace
    · exact byName hname
  | some form =>
    have hmem : form ∈ Form.all := List.mem_of_find?_eq_some hform
    rw [Option.map_some]
    rcases hword : whole (form.rule nested) i.skip with ⟨nodes, e | ⟨⟨⟩, j⟩⟩
    · rcases hname : whole (assignmentRule none) i.skip with ⟨nodes', e' | ⟨⟨⟩, j⟩⟩
      · exact isStatement_of_whole_error (skip_skip i) hmem known hword e
      · exact byName hname
    · exact isStatement_of_whole (skip_skip i) hmem known hword

/-- What is read as a statement is one. -/
theorem isStatement_statementUpTo (n : Nat) (i : Input) :
    IsStatement i.skip (statementUpTo n i).1 (statementUpTo n i).2 := by
  induction n generalizing i with
  | zero => exact .broken (.done id)
  | succ n ih => exact isStatement_statementWith ih i

theorem isStatement_statement (i : Input) :
    IsStatement i.skip (statement i).1 (statement i).2 :=
  isStatement_statementUpTo _ i

theorem statementsUpTo_of_nil {n : Nat} {i : Input} (h : i.skip.rest = []) :
    statementsUpTo n i = [] := by
  cases n with
  | zero => rfl
  | succ n => rw [statementsUpTo, h]

theorem statementsUpTo_of_colon {n : Nat} {i : Input} {rest : List Char}
    (h : i.skip.rest = ':' :: rest) : statementsUpTo (n + 1) i =
      i.skip.leaf (.token .colon) [':'] :: statementsUpTo n (i.skip.after [':'] rest) := by
  rw [statementsUpTo, h]
  rfl

theorem statementsUpTo_of_statement {n : Nat} {i : Input} (hnil : i.skip.rest ≠ [])
    (hcolon : ∀ rest, i.skip.rest ≠ ':' :: rest) : statementsUpTo (n + 1) i =
      (statement i.skip).1 :: statementsUpTo n (statement i.skip).2 := by
  rw [statementsUpTo]
  split
  · exact absurd ‹_› hnil
  · exact absurd ‹_› (hcolon _)
  · rfl

/-- Induction on the colons and statements of a line, one by one from a place on. -/
@[elab_as_elim]
theorem statementsUpTo_induction {P : Nat → Input → List Node → Prop}
    (stop : ∀ i, P 0 i [])
    (done : ∀ n i, i.skip.rest = [] → P (n + 1) i [])
    (colon : ∀ n i rest, i.skip.rest = ':' :: rest →
      P n (i.skip.after [':'] rest) (statementsUpTo n (i.skip.after [':'] rest)) →
        P (n + 1) i
          (i.skip.leaf (.token .colon) [':'] :: statementsUpTo n (i.skip.after [':'] rest)))
    (statement : ∀ n i node j, statement i.skip = (node, j) → IsStatement i.skip node j →
      endsStatement i.skip.rest = false → P n j (statementsUpTo n j) →
        P (n + 1) i (node :: statementsUpTo n j))
    (n : Nat) (i : Input) : P n i (statementsUpTo n i) := by
  induction n generalizing i with
  | zero => exact stop i
  | succ n ih =>
    by_cases hnil : i.skip.rest = []
    · rw [statementsUpTo_of_nil hnil]
      exact done n i hnil
    by_cases hcolon : ∃ rest, i.skip.rest = ':' :: rest
    · obtain ⟨rest, hrest⟩ := hcolon
      rw [statementsUpTo_of_colon hrest]
      exact colon n i rest hrest (ih _)
    · rw [statementsUpTo_of_statement hnil fun rest hrest => hcolon ⟨rest, hrest⟩]
      have hnode := isStatement_statement i.skip
      rw [skip_skip] at hnode
      have hbegins : endsStatement i.skip.rest = false := by
        obtain ⟨c, more, hrest⟩ := List.exists_cons_of_ne_nil hnil
        have hc : c ≠ ':' := fun hc => hcolon ⟨more, by rw [hrest, hc]⟩
        rw [hrest]
        simpa [endsStatement] using hc
      exact statement n i _ _ rfl hnode hbegins (ih _)

end IntegerBasic.Grammar
