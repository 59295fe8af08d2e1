import IntegerBasic.Grammar.Program

/-!
# Room on the stack

The rules call one another, and every call takes a place on a stack of limited size. A line that
nests deeper than the stack has room for is not read at all, and no error leaf takes its place. Here
the rules are tied together once more, by the number of calls that there is room for. Where that is
enough they read what they read without a limit.

An expression, its operand and the operand without its signs are three calls. So three lead to an
expression in parentheses, and four to one in a subscript or behind a function. A statement, the
attempt at a rule for it and the rule are three as well, and three lead to a statement behind
`THEN`. Every one of these calls at least one more thing that needs a place. What else is on the
stack is left out of the number.
-/

namespace IntegerBasic.Grammar

open Rule

inductive Overflow where
  | depth
  deriving DecidableEq, Repr

def Overflow.message : Overflow → String
  | .depth => Mismatch.message .depth

/-- How many calls there is room for, unless it is set otherwise. -/
def stackLimit : Nat := 1000

def expressionOn : Nat → Rule DataType
  | calls + 4 =>
    operandsOf (operandOf (primaryOf (expressionOn (calls + 1)) (expressionOn calls)))
  | _ => stop .depth

/-- The rule is not stopped by the text. -/
def Reading.isDone {α : Type} (r : Reading α) : Bool := r.outcome.toBool

def Reading.isDeep {α : Type} (r : Reading α) : Bool :=
  match r.outcome with
  | .error .depth => true
  | _ => false

/-- A statement inside another. If there is no room for it, the other cannot go on either. -/
def nestedOn (read : Input → Except Overflow (Node × Input)) : Rule Unit := fun i =>
  match read i with
  | .error _ => ⟨[], .error .depth⟩
  | .ok (node, j) => ⟨[node], .ok ((), j)⟩

/-- Chooses as `settle` does, unless a rule went too deep that was tried: the rule of the word, or
the one for assignments where that of the word does not fit. -/
def settleOn (i : Input) (byWord : Option (Reading Unit)) (byName : Reading Unit) :
    Except Overflow (Node × Input) :=
  if byWord.any Reading.isDeep then .error .depth
  else if !byWord.any Reading.isDone && byName.isDeep then .error .depth
  else .ok (settle i byWord byName)

def statementOn : Nat → Input → Except Overflow (Node × Input)
  | calls + 4 => fun i =>
    let near := expressionOn (calls + 1)
    let far := expressionOn calls
    settleOn i.skip
      ((Form.ofText? i.skip.rest).map fun form =>
        whole (form.ruleOf near far (nestedOn (statementOn (calls + 1)))) i.skip)
      (whole (assignmentOf near far none) i.skip)
  | _ => fun _ => .error .depth

def statementsOn (calls : Nat) : Nat → Input → Except Overflow (List Node)
  | 0, _ => .ok []
  | n + 1, i =>
    match i.skip.rest with
    | [] => .ok []
    | ':' :: rest => do
      let more ← statementsOn calls n (i.skip.after [':'] rest)
      return i.skip.leaf (.token .colon) [':'] :: more
    | _ => do
      let (node, j) ← statementOn calls i.skip
      return node :: (← statementsOn calls n j)

/-- The children of a line. Two calls lead to a statement, and two more are needed on any line. -/
def childrenOn : Nat → Int → List Char → Except Overflow (List Node)
  | calls + 4, row, text =>
    match Lexeme.lineNumber text with
    | none => .ok [unnumbered row text]
    | some (number, rest) => do
      let i : Input := ⟨row, 0, text⟩
      let more ← statementsOn (calls + 2) (rest.length + 1) (i.after number rest)
      return i.leaf .lineNumber number :: more
  | _, _, _ => .error .depth

/-- The tree of one line. -/
def lineOn (calls : Nat) (row : Int) (text : List Char) : Except Overflow Node := do
  return .inner ⟨.line, text, ⟨⟨row, 0⟩, ⟨row, text.length⟩⟩⟩ (← childrenOn calls row text)

/-- The tree of a program, from which one call leads to a line. -/
def programOn (calls : Nat) (text : List Char) : Except Overflow Node := do
  let lines ← (numberedRows text).mapM fun (row, text) => lineOn (calls - 1) row text
  return .inner ⟨.program, text, programSpan text⟩ lines

end IntegerBasic.Grammar
