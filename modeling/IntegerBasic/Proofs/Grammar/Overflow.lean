import IntegerBasic.Proofs.Grammar.Room

/-!
# Lines that nest too deep

A line is read with limited room as it is read without a limit, or it is not read at all, and then
the text has so many parentheses and letters H that it may nest too deep for the room. However much
room there is, some line does: one with more parentheses behind another than there is room for.
-/

namespace IntegerBasic.Grammar

open Lexeme Rule

variable {α β : Type} {n : Nat} {i j : Input}

/-- A choice is the same among readings that did not go too deep. -/
theorem settleOn_cases {P : Prop} {byWord byWord' : Option (Reading Unit)}
    {byName byName' : Reading Unit}
    (hword : byWord'.any Reading.isDeep = true ∧ P ∨
      byWord'.any Reading.isDeep = false ∧ byWord' = byWord)
    (hname : byName'.isDeep = true ∧ P ∨ byName'.isDeep = false ∧ byName' = byName) (i : Input) :
    settleOn i byWord' byName' = .error .depth ∧ P ∨
      settleOn i byWord' byName' = .ok (settle i byWord byName) := by
  cases hword with
  | inl hword => exact .inl ⟨by simp [settleOn, hword.1], hword.2⟩
  | inr hword =>
    obtain ⟨hshallow, rfl⟩ := hword
    cases hname with
    | inr hname =>
      obtain ⟨hname, rfl⟩ := hname
      exact .inr (by simp [settleOn, hshallow, hname])
    | inl hname =>
      cases hdone : byWord'.any Reading.isDone with
      | false => exact .inl ⟨by simp [settleOn, hshallow, hdone, hname.1], hname.2⟩
      | true =>
        -- the rule of the word has read the statement, and the other is not asked
        cases byWord' with
        | none => cases hdone
        | some r =>
          obtain ⟨nodes, e | x⟩ := r
          · cases hdone
          · exact .inr (by simp [settleOn, settle, Reading.isDone, Except.toBool])

/-- A statement takes four calls of its own besides those of the steps deeper. -/
theorem statementOn_cases_of_room {calls : Nat} (h : 4 * n ≤ calls - 4) (i : Input) :
    statementOn calls i = .error .depth ∧ n ≤ nesting i.rest ∨
      statementOn calls i = .ok (statement i) := by
  induction calls using Nat.strong_induction_on generalizing n i with
  | h calls ih =>
    match calls, h with
    | 0, h | 1, h | 2, h | 3, h => exact .inl ⟨rfl, by omega⟩
    | calls + 4, h =>
      have hnear : Suffices n n (expressionOn (calls + 1)) expression :=
        .expressionOn (by omega)
      have hfar : Suffices n n (expressionOn calls) expression := .expressionOn (by omega)
      have hnested := Suffices.nested fun j => ih (calls + 1) (by omega) (n := n - 1) (by omega) j
      have hskip := nesting_skip_le i
      have hweak : ∀ {r : Reading Unit} {r' : Reading Unit},
          r'.isDeep = true ∧ n ≤ nesting i.skip.rest ∨ r'.isDeep = false ∧ r' = r →
            r'.isDeep = true ∧ n ≤ nesting i.rest ∨ r'.isDeep = false ∧ r' = r :=
        fun h => h.imp_left fun h => ⟨h.1, h.2.trans hskip⟩
      have hname := (Suffices.whole (.assignment hnear hfar none)).reads i.skip
      rw [← computes_statement.equation]
      refine settleOn_cases ?_ (hweak hname) i.skip
      cases Form.ofText? i.skip.rest with
      | none => exact .inr ⟨rfl, rfl⟩
      | some form =>
        have hword := (Suffices.whole (.ruleOf hnear hfar hnested form)).reads i.skip
        exact (hweak hword).imp id fun h => ⟨h.1, congrArg some h.2⟩

theorem statementsOn_of_colon {calls count : Nat} {rest : List Char}
    (h : front i.rest = ':' :: rest) : statementsOn calls (count + 1) i = do
      let more ← statementsOn calls count (i.skip.after [':'] rest)
      return i.skip.leaf (.token .colon) [':'] :: more := by
  rw [statementsOn, rest_skip, h]
  rfl

theorem statementsOn_of_statement {calls count : Nat} (hnil : front i.rest ≠ [])
    (hcolon : ∀ rest, front i.rest ≠ ':' :: rest) : statementsOn calls (count + 1) i = do
      let read ← statementOn calls i.skip
      return read.1 :: (← statementsOn calls count read.2) := by
  rw [statementsOn, rest_skip]
  split
  · exact absurd ‹_› hnil
  · exact absurd ‹_› (hcolon _)
  · rfl

theorem statementsOn_cases {calls : Nat} (h : 4 * n ≤ calls - 4) (count : Nat) (i : Input) :
    statementsOn calls count i = .error .depth ∧ n ≤ nesting i.rest ∨
      statementsOn calls count i = .ok (statementsUpTo count i) := by
  induction count generalizing i with
  | zero => exact .inr rfl
  | succ count ih =>
    have hskip := nesting_skip_le i
    by_cases hnil : front i.rest = []
    · exact .inr (by rw [statementsUpTo_of_nil hnil, statementsOn, rest_skip, hnil])
    by_cases hcolon : ∃ rest, front i.rest = ':' :: rest
    · obtain ⟨rest, hrest⟩ := hcolon
      rw [statementsUpTo_of_colon hrest, statementsOn_of_colon hrest]
      rw [rest_skip, hrest, nesting, List.countP_cons] at hskip
      cases ih (i.skip.after [':'] rest) with
      | inl hdeep =>
        have hle : n ≤ nesting rest := hdeep.2
        rw [nesting] at hle
        exact .inl ⟨by rw [hdeep.1]; rfl, by omega⟩
      | inr hread => exact .inr (by rw [hread]; rfl)
    · have hcolon : ∀ rest, front i.rest ≠ ':' :: rest := fun rest h => hcolon ⟨rest, h⟩
      rw [statementsUpTo_of_statement hnil hcolon, statementsOn_of_statement hnil hcolon]
      cases statementOn_cases_of_room h i.skip with
      | inl hdeep => exact .inl ⟨by rw [hdeep.1]; rfl, by omega⟩
      | inr hread =>
        obtain ⟨text, hpasses⟩ := (isStatement_statement i.skip).passes
        rw [skip_skip] at hpasses
        have hle := hpasses.nesting_le
        rw [hread]
        cases ih (statement i.skip).2 with
        | inl hdeep => exact .inl ⟨by dsimp only [Bind.bind, Except.bind]; rw [hdeep.1], by omega⟩
        | inr hmore => exact .inr (by dsimp only [Bind.bind, Except.bind]; rw [hmore]; rfl)

theorem childrenOn_cases {calls : Nat} (h : 4 * n ≤ calls - 6) (row : Int) (text : List Char) :
    childrenOn calls row text = .error .depth ∧ n ≤ nesting text ∨
      childrenOn calls row text = .ok (line row text).children := by
  match calls, h with
  | 0, h | 1, h | 2, h | 3, h => exact .inl ⟨rfl, by omega⟩
  | calls + 4, h =>
    cases hnumber : lineNumber text with
    | none =>
      right
      simp only [childrenOn, line, hnumber]
      rfl
    | some pair =>
      obtain ⟨number, rest⟩ := pair
      have happend := congrArg nesting (append_of_lineNumber hnumber)
      rw [nesting_append] at happend
      simp only [childrenOn, line, hnumber]
      have hroom : 4 * n ≤ calls + 2 - 4 := by omega
      cases statementsOn_cases hroom (rest.length + 1) (Input.after ⟨row, 0, text⟩ number rest) with
      | inl hdeep =>
        have hle : n ≤ nesting rest := hdeep.2
        exact .inl ⟨by rw [hdeep.1]; rfl, by omega⟩
      | inr hread => exact .inr (by rw [hread]; rfl)

/-- A statement is read, or it nests too deep for the room that there is. -/
theorem statementOn_cases (calls : Nat) (i : Input) :
    statementOn calls i = .error .depth ∧ calls < 4 * nesting i.rest + 8 ∨
      statementOn calls i = .ok (statement i) :=
  (statementOn_cases_of_room (Nat.mul_div_le (calls - 4) 4) i).imp_left
    fun ⟨hdeep, hle⟩ => ⟨hdeep, by omega⟩

/-- A line is read, or it nests too deep for the room that there is. -/
theorem lineOn_cases (calls : Nat) (row : Int) (text : List Char) :
    lineOn calls row text = .error .depth ∧ calls < 4 * nesting text + 10 ∨
      lineOn calls row text = .ok (line row text) := by
  unfold lineOn
  by_cases hroom : calls < 4 * nesting text + 10
  · cases childrenOn_cases (n := 0) (Nat.zero_le _) row text with
    | inl hdeep => exact .inl ⟨by rw [hdeep.1]; rfl, hroom⟩
    | inr hread => exact .inr (by rw [hread]; rfl)
  · have hroom : 4 * (nesting text + 1) ≤ calls - 6 := by omega
    cases childrenOn_cases hroom row text with
    | inl hdeep => exact absurd hdeep.2 (Nat.not_succ_le_self _)
    | inr hread => exact .inr (by rw [hread]; rfl)

section Parentheses

variable {near far : Rule DataType}

theorem isDeep_bind {r : Rule α} (h : (r i).isDeep = true) (f : α → Rule β) :
    ((r >>= f) i).isDeep = true := by
  obtain ⟨nodes, hdeep⟩ := isDeep_iff.1 h
  exact isDeep_iff.2 ⟨nodes, bind_eq_of_error hdeep f⟩

theorem isDeep_bind_of_ok {r : Rule α} {nodes : List Node} {a : α} {f : α → Rule β}
    (h : r i = ⟨nodes, .ok (a, j)⟩) (hf : (f a j).isDeep = true) :
    ((r >>= f) i).isDeep = true := by
  rw [bind_eq_of_ok h]
  exact hf

theorem isDeep_bind_of_silent {r : Rule α} {a : α} {f : α → Rule β} (h : r i = ⟨[], .ok (a, j)⟩)
    (hf : (f a j).isDeep = true) : ((r >>= f) i).isDeep = true :=
  isDeep_bind_of_ok h hf

/-- Three calls lead from one parenthesis to the next. -/
theorem isDeep_parentheses {calls k : Nat} (h : calls < 3 * k + 4) (row : Int) (col : Nat) :
    (expressionOn calls ⟨row, col, List.replicate k '('⟩).isDeep = true := by
  induction k generalizing calls col with
  | zero =>
    match calls, h with
    | 0, _ | 1, _ | 2, _ | 3, _ => rfl
  | succ k ih =>
    match calls, h with
    | 0, _ | 1, _ | 2, _ | 3, _ => rfl
    | calls + 4, h =>
      have hless : calls + 1 < 3 * k + 4 := by omega
      have hinner := ih hless (col + 1)
      have hopen : expect .openParen ⟨row, col, List.replicate (k + 1) '('⟩ =
          ⟨[.leaf ⟨.token .openParen, ['('], ⟨⟨row, col⟩, ⟨row, col + 1⟩⟩⟩],
            .ok ((), ⟨row, col + 1, List.replicate k '('⟩)⟩ := rfl
      have hprimary : (primaryOf (expressionOn (calls + 1)) (expressionOn calls)
          ⟨row, col, List.replicate (k + 1) '('⟩).isDeep = true :=
        isDeep_bind_of_silent rfl <| isDeep_bind_of_silent rfl <|
          isDeep_bind_of_ok hopen (isDeep_bind hinner _)
      have hoperand : (operandOf (primaryOf (expressionOn (calls + 1)) (expressionOn calls))
          ⟨row, col, List.replicate (k + 1) '('⟩).isDeep = true :=
        isDeep_bind_of_silent rfl (isDeep_bind hprimary _)
      exact isDeep_bind hoperand _

theorem isDeep_print {near far : Rule DataType} {nested : Rule Unit} {row : Int} {col : Nat}
    {rest : List Char} (h : (near ⟨row, col + 6, '(' :: rest⟩).isDeep = true) :
    (whole (Form.printList.ruleOf near far nested)
      ⟨row, col, "PRINT (".toList ++ rest⟩).isDeep = true := by
  have hitem : (printItemOf near ⟨row, col + 5, " (".toList ++ rest⟩).isDeep = true :=
    isDeep_bind_of_silent (a := false) rfl (isDeep_bind h _)
  have hword : (wordThen (.print none) .print (printItemOf near)
      ⟨row, col, "PRINT (".toList ++ rest⟩).isDeep = true := hitem
  exact isDeep_bind (isDeep_bind hword _) _

theorem statementOn_of_isDeep {calls : Nat} {form : Form}
    (hform : Form.ofText? i.skip.rest = some form)
    (h : (whole (form.ruleOf (expressionOn (calls + 1)) (expressionOn calls)
      (nestedOn (statementOn (calls + 1)))) i.skip).isDeep = true) :
    statementOn (calls + 4) i = .error .depth := by
  simp [statementOn, settleOn, hform, h]

theorem lineOn_of_statement {calls : Nat} {row : Int} {text number rest : List Char}
    (hnumber : lineNumber text = some (number, rest)) (hnil : front rest ≠ [])
    (hcolon : ∀ more, front rest ≠ ':' :: more)
    (h : statementOn (calls + 2) (Input.after ⟨row, 0, text⟩ number rest).skip = .error .depth) :
    lineOn (calls + 4) row text = .error .depth := by
  have hstatements : statementsOn (calls + 2) (rest.length + 1)
      (Input.after ⟨row, 0, text⟩ number rest) = .error .depth := by
    rw [statementsOn_of_statement hnil hcolon, h]
    rfl
  simp only [lineOn, childrenOn, hnumber, hstatements]
  rfl

/-- Where there is room for fewer calls than the parentheses behind `PRINT` take, the line is not
read. -/
theorem lineOn_parentheses {calls k : Nat} (h : calls < 3 * k + 12) (row : Int) :
    lineOn calls row ("10 PRINT ".toList ++ List.replicate (k + 1) '(') = .error .depth := by
  have hstatement : ∀ {calls : Nat}, calls < 3 * k + 10 →
      statementOn calls ⟨row, 3, "PRINT ".toList ++ List.replicate (k + 1) '('⟩ =
        .error .depth := by
    intro calls h
    match calls, h with
    | 0, _ | 1, _ | 2, _ | 3, _ => rfl
    | calls + 4, h =>
      have hless : calls + 1 < 3 * (k + 1) + 4 := by omega
      have hform : Form.ofText? ("PRINT ".toList ++ List.replicate (k + 1) '(') =
        some .printList := rfl
      exact statementOn_of_isDeep hform (isDeep_print (isDeep_parentheses hless row 9))
  have hfront : front ("PRINT ".toList ++ List.replicate (k + 1) '(') =
    'P' :: ("RINT ".toList ++ List.replicate (k + 1) '(') := rfl
  match calls, h with
  | 0, _ | 1, _ | 2, _ | 3, _ => rfl
  | calls + 4, h =>
    have hnumber : lineNumber ("10 PRINT ".toList ++ List.replicate (k + 1) '(') =
      some ("10 ".toList, "PRINT ".toList ++ List.replicate (k + 1) '(') := rfl
    refine lineOn_of_statement hnumber ?_ ?_ (hstatement (by omega))
    · rw [hfront]
      exact List.cons_ne_nil _ _
    · intro more hmore
      rw [hfront] at hmore
      cases hmore

end Parentheses

end IntegerBasic.Grammar
