import IntegerBasic.Document.Edit
import IntegerBasic.Grammar.Program
import IntegerBasic.Json
import IntegerBasic.Tree.Walk

/-!
# Renumbering

New numbers for all lines of a program or for those in some rows, and, if asked for, the same
change for the numbers that commands and branches refer to. The new numbers have to stay between
the numbers of the lines around the rows. The result is a list of edits, in which every number
keeps its blanks.
-/

namespace IntegerBasic.Renumber

/-- A line number as it is written, with the blanks before and behind its digits. -/
structure Reference where
  number : Nat
  span : Span
  leading : Nat
  trailing : Nat
  deriving DecidableEq, Repr

inductive Fault where
  /-- The first number or the step is no number or too small. -/
  | parameters
  /-- The first number or the step is beyond all numbers. -/
  | infinite
  /-- The new numbers do not fit between the lines around them. -/
  | bounds (first last lower upper : Int)
  | numeral (fault : Numeral.Fault)
  /-- The rows begin before the text does. -/
  | row
  deriving DecidableEq, Repr

def Fault.message : Fault → String
  | .parameters => "start and step parameters invalid"
  | .infinite => "cannot convert float infinity to integer"
  | .bounds first last lower upper =>
    "new range (" ++ toString first ++ "," ++ toString last ++ ") exceeds bounds (" ++
      toString lower ++ "," ++ toString upper ++ ")"
  | .numeral fault => fault.message
  | .row => "list index out of range"

def lineNumberLimit : Int := 32767

def parameter (value : Json) : Except Fault Int :=
  match value.toInteger with
  | .ok n => .ok n
  | .error .infinite => .error .infinite
  | .error _ => .error .parameters

/-- The first number and the step: the first is not negative, the step is positive. -/
def parameters (start step : Json) : Except Fault (Int × Int) := do
  let first ← parameter start
  let increment ← parameter step
  if first < 0 ∨ increment < 1 then .error .parameters else .ok (first, increment)

def Reference.ofLeaf (leaf : Leaf) : Except Numeral.Fault Reference := do
  let number ← Numeral.readToken leaf.text
  return ⟨number, leaf.span, leaf.text.length - (Text.trimLeft leaf.text).length,
    leaf.text.length - (Text.trimRight leaf.text).length⟩

def Reference.edit (r : Reference) (number : Int) : Document.Edit :=
  ⟨.ofSpan r.span, List.replicate r.leading ' ' ++ Numeral.decimalInt number ++
    List.replicate r.trailing ' '⟩

/-- The numbers that label lines, in the order of the text. -/
def primaries (tree : Node) : Except Numeral.Fault (List Reference) :=
  (tree.leaves.filter (·.kind == .lineNumber)).mapM Reference.ofLeaf

/-- A word that a line number may follow as the target of a branch. -/
def isBranch (node : Node) : Bool :=
  match node.token? with
  | some .goto | some .gosub | some .thenLine => true
  | _ => false

/-- A number that refers to a line: right behind a branch, or the argument of a command. -/
def isSecondary (seat : Seat) (kind : LeafKind) : Bool :=
  match kind with
  | .integer => seat.preceding.head?.any isBranch
  | .lineArgument => true
  | _ => false

def secondaryAt (seat : Seat) (found : List Reference) :
    Except Numeral.Fault (Directive × List Reference) :=
  match seat.node with
  | .leaf leaf =>
    if isSecondary seat leaf.kind then do
      return (.sibling, found ++ [← Reference.ofLeaf leaf])
    else return (.child, found)
  | .inner _ _ => return (.child, found)

/-- The numbers that refer to lines, in the order of the text. -/
def secondaries (tree : Node) : Except Numeral.Fault (List Reference) :=
  tree.survey secondaryAt []

/-- The rows from the first to the last, both included. -/
structure Selection where
  first : Int
  last : Int
  deriving DecidableEq, Repr

def Selection.contains (selection : Selection) (row : Int) : Bool :=
  selection.first ≤ row && row ≤ selection.last

/-- The number at the front of a line, behind any blanks. -/
def guardNumber (line : List Char) : Except Numeral.Fault (Option Int) :=
  match Lexeme.integer (Text.trimLeft line) with
  | none => return none
  | some (number, _) => return some (← Numeral.readToken number)

def firstGuard : List (List Char) → Except Numeral.Fault (Option Int)
  | [] => return none
  | line :: more => do
    match ← guardNumber line with
    | some n => return some n
    | none => firstGuard more

def clampNumber (n : Int) : Int := min (max n 0) lineNumberLimit

/-- The least and the greatest number that the selected lines may take. Without a selection
that is any number of a line. -/
def guards (lines : List (List Char)) (selection : Option Selection) :
    Except Fault (Int × Int) :=
  match selection with
  | none => return (0, lineNumberLimit)
  | some selection => do
    let above := (lines.take selection.first.toNat).reverse
    let lower ← (firstGuard above).mapError .numeral
    let below ← match Index.from? lines (selection.last + 1) with
      | some below => pure below
      | none => .error .row
    let upper ← (firstGuard below).mapError .numeral
    return (clampNumber (lower.elim 0 (· + 1)), clampNumber (upper.elim lineNumberLimit (· - 1)))

def assign (first step : Int) (refs : List Reference) : List (Reference × Int) :=
  refs.zipIdx.map fun (r, i) => (r, first + step * i)

def select (selection : Option Selection) (refs : List Reference) : List Reference :=
  match selection with
  | none => refs
  | some selection => refs.filter fun r => selection.contains r.span.start.row

/-- The fault of new numbers that do not fit. Numbers with too many digits to be shown are a
fault of their own. -/
def outOfBounds (first last lower upper : Int) : Fault :=
  if Numeral.isShowable first && Numeral.isShowable last then .bounds first last lower upper
  else .numeral .unshowable

/-- The new numbers of the lines. Nothing is assigned if no line is selected; otherwise all new
numbers lie between the guards. -/
def assignments (text : List Char) (start step : Json) (selection : Option Selection) :
    Except Fault (List (Reference × Int)) := do
  let (first, step) ← parameters start step
  let chosen := select selection (← (primaries (Grammar.program text)).mapError .numeral)
  if chosen.isEmpty then return []
  let last := first + step * (chosen.length - 1 : Nat)
  let (lower, upper) ← guards (Text.lines text) selection
  if first < lower ∨ upper < last then .error (outOfBounds first last lower upper)
  else return assign first step chosen

/-- Which old number becomes which new one. Of lines with the same number the last counts. -/
def mapping (assigned : List (Reference × Int)) : List (Nat × Int) :=
  assigned.foldl (fun table (r, n) => Table.put table r.number n) []

/-- The edits that carry out assignments: first the lines, then, if asked for, the references. -/
def editsOf (text : List Char) (assigned : List (Reference × Int)) (updateReferences : Bool) :
    Except Fault (List Document.Edit) := do
  let edits := assigned.map fun (r, n) => r.edit n
  if updateReferences && !assigned.isEmpty then
    let refs ← (secondaries (Grammar.program text)).mapError .numeral
    let table := mapping assigned
    return edits ++ refs.filterMap fun r => (Table.get? table r.number).map r.edit
  else return edits

def edits (text : List Char) (start step : Json) (updateReferences : Bool)
    (selection : Option Selection) : Except Fault (List Document.Edit) := do
  editsOf text (← assignments text start step selection) updateReferences

end IntegerBasic.Renumber
