import IntegerBasic.Analysis.Diagnostic
import IntegerBasic.Analysis.Symbols
import IntegerBasic.Numeral
import IntegerBasic.Tree.Walk

/-!
# First pass: what a program declares

The first pass gathers the numbers of the lines with their remarks, and every variable that
`DIM` declares or that an assignment, `INPUT` or `FOR` gives a value. It reports line numbers
that are too large or out of order, and leaves them out of the table.
-/

namespace IntegerBasic.Analysis

structure State where
  symbols : Symbols := {}
  diagnostics : List Diagnostic := []
  /-- The last line number that was taken into the table. -/
  lastLine : Option Nat := none
  deriving DecidableEq, Repr

def State.report (state : State) (span : Span) (finding : Finding) : State :=
  { state with diagnostics := state.diagnostics ++ [⟨span, finding⟩] }

def lineNumberLimit : Nat := 32767

/-- The greatest number of variables that one statement declares or defines. -/
def listLimit : Nat := 64

/-- How deep inside the subscripts of a `DIM` list the node behind this one stands. Only the
parenthesis of a declaration opens a subscript from outside. -/
def subscriptDepth (depth : Nat) (node : Node) : Nat :=
  match depth, node.token? with
  | 0, some (.openDim _) => 1
  | 0, _ => 0
  | d + 1, some t =>
    match t.group with
    | .opener => d + 2
    | .closer => d
    | .function => if t.includesParen then d + 2 else d + 1
    | _ => d + 1
  | d + 1, none => d + 1

/-- The nodes of a run of siblings that stand outside all subscripts, each with the siblings
behind it. -/
def outsideSubscripts : Nat → List Node → List (Node × List Node)
  | _, [] => []
  | depth, node :: more =>
    let rest := outsideSubscripts (subscriptDepth depth node) more
    if depth = 0 then (node, more) :: rest else rest

/-- The variables that can be assigned to in a run of siblings, with their places. -/
def targets (nodes : List Node) : List (Variable × Span) :=
  (outsideSubscripts 0 nodes).filterMap fun (node, following) =>
    (targetVariable? node following).map (·, node.span)

/-- The remark of a line, given what follows its number: the last one counts. -/
def lineRemark (statements : List Node) : List Char :=
  let remarks := statements.filterMap fun node =>
    match node.children with
    | .leaf ⟨.token .rem, _, _⟩ :: text :: _ => some text.text
    | _ => none
  remarks.getLastD []

def addPrimary (span : Span) (number : Nat) (statements : List Node) (state : State) : State :=
  if lineNumberLimit < number then state.report span (.outOfRange 0 lineNumberLimit)
  else if state.lastLine.any (number ≤ ·) then state.report span .outOfOrder
  else { state with
    symbols := state.symbols.addLine number ⟨span, lineRemark statements, [], []⟩
    lastLine := some number }

def declareAll (found : List (Variable × Span)) (state : State) : State :=
  { state with
    symbols := found.foldl (fun symbols (v, span) => symbols.declare v span) state.symbols }

def defineAll (found : List (Variable × Span)) (state : State) : State :=
  { state with
    symbols := found.foldl (fun symbols (v, span) => symbols.define v span) state.symbols }

/-- What the first pass does at a node. A statement that declares or defines is left as soon as
its word has been seen. -/
def declareAt (seat : Seat) (state : State) : Except Numeral.Fault (Directive × State) :=
  match seat.node with
  | .leaf ⟨.lineNumber, text, span⟩ => do
    let number ← Numeral.readToken text
    return (.sibling, addPrimary span number seat.following state)
  | .leaf ⟨.token (.dim _), _, _⟩ =>
    return (.parentSibling, declareAll ((targets seat.following).take listLimit) state)
  | .leaf ⟨.token (.input _), _, _⟩ | .leaf ⟨.token .inputPrompt, _, _⟩ =>
    return (.parentSibling, defineAll ((targets seat.following).take listLimit) state)
  | .leaf ⟨.token .forLoop, _, _⟩ =>
    return (.parentSibling, defineAll ((targets seat.following).take 1) state)
  | .inner ⟨.assignment _, _, _⟩ children =>
    return (.parentSibling, defineAll ((targets children).take 1) state)
  | .inner ⟨.line, _, _⟩ _ | .inner ⟨.statement, _, _⟩ _ => return (.child, state)
  | _ => return (.sibling, state)

/-- The first pass over a tree. -/
def declarePass (tree : Node) (state : State) : Except Numeral.Fault State :=
  tree.survey declareAt state

end IntegerBasic.Analysis
