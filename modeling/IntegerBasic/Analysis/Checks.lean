import IntegerBasic.Analysis.Declarations
import IntegerBasic.Grammar.Lexeme
import IntegerBasic.Settings

/-!
# Second pass: what a program uses

The second pass holds every node against what the first has gathered: the targets of branches,
the ranges of operands, the use of variables, the case of letters, errors in the text, and the
length of lines.
-/

namespace IntegerBasic.Analysis

/-- The greatest address that can be written, above and below zero. -/
def addressLimit : Int := 32767

def byteLimit : Int := 255

def isToken (t : Token) (node : Node) : Bool := node.token? == some t

def isSign (node : Node) : Bool := isToken .unaryMinus node || isToken .unaryPlus node

/-- The value of an operand that is written as a number with signs before it, and the span from
the first sign on. Any other operand is computed and has none. -/
def literal? (operand : List Node) : Except Numeral.Fault (Option (Int × Span)) :=
  let signs := operand.takeWhile isSign
  match operand.drop signs.length with
  | [.leaf ⟨.integer, text, span⟩] => do
    let magnitude : Int ← Numeral.readToken text
    let value := if (signs.filter (isToken .unaryMinus)).length % 2 = 1 then -magnitude
      else magnitude
    let start := (signs.head?.map (·.span.start)).getD span.start
    return some (value, ⟨start, span.stop⟩)
  | _ => return none

def checkRange (operand : List Node) (low high : Int) (state : State) :
    Except Numeral.Fault State := do
  match ← literal? operand with
  | none => return state
  | some (value, span) =>
    return if low ≤ value ∧ value ≤ high then state else state.report span (.outOfRange low high)

def upTo (t : Token) (nodes : List Node) : List Node := nodes.takeWhile (!isToken t ·)

def behind (t : Token) (nodes : List Node) : Option (List Node) :=
  match nodes.dropWhile (!isToken t ·) with
  | [] => none
  | _ :: rest => some rest

/-- The line number that a branch goes to, if it is written as a number: nothing but the number
stands between the branch and the end of the statement or an error. -/
def branchTarget? (following : List Node) : Option Leaf :=
  match following.takeWhile (!·.isError) with
  | [.leaf ⟨.integer, text, span⟩] => some ⟨.integer, text, span⟩
  | _ => none

def checkBranch (seat : Seat) (isGosub : Bool) (state : State) :
    Except Numeral.Fault (Directive × State) :=
  match branchTarget? seat.following with
  | none => return (.child, state)
  | some target => do
    let number ← Numeral.readToken target.text
    if (state.symbols.findLine? number).isSome then
      return (.parentSibling,
        { state with symbols := state.symbols.branch number isGosub target.span })
    else if seat.familyHasError then
      return (.sibling, state.report target.span .unsureBranch)
    else return (.parentSibling, state.report target.span .deadBranch)

/-- A name that `DIM` declares: it follows the word, outside all subscripts. -/
def isDeclared (seat : Seat) : Bool :=
  match seat.preceding.reverse with
  | .leaf ⟨.token (.dim _), _, _⟩ :: between => between.foldl subscriptDepth 0 == 0
  | _ => false

def checkVariable (settings : Settings) (v : Variable) (span : Span) (state : State) : State :=
  let info := state.symbols.findVariable? v.key
  let isDeclared := info.any (!·.declarations.isEmpty)
  let isDefined := info.any (!·.definitions.isEmpty)
  let findings : List Finding :=
    (if !isDeclared && settings.warnUndeclaredArrays then
      (if v.isArray && !v.isString then [.undeclaredArray] else []) ++
        (if v.isString then [.undeclaredString] else [])
    else []) ++
    (if !isDefined && settings.warnUndefinedVariables then [.unassigned] else []) ++
    (if isDeclared && !v.isArray && !v.isString then [.firstElement] else [])
  let state := findings.foldl (fun state finding => state.report span finding) state
  { state with symbols := state.symbols.refer v span }

/-- The words that an assignment without `LET` must not begin with. -/
def shadowedWords : List Token := [.dsp .integer, .nodsp .integer, .next, .input .integer]

/-- A name that begins with the word of a statement and goes on with a letter. -/
def isIllegalName (text : List Char) : Bool :=
  shadowedWords.any fun t =>
    match Lexeme.word t.spelling.toList (text.dropWhile Lexeme.isSpace) with
    | none => false
    | some (_, rest) => (rest.dropWhile Lexeme.isSpace).head?.any Char.isAlpha

def isCased (kind : LeafKind) : Bool :=
  match kind with
  | .name _ => true
  | .token t => t.group == .word || t.group == .function || t.group == .operator
  | _ => false

def checkCase (settings : Settings) (leaf : Leaf) (state : State) : State :=
  if settings.caseSensitive && isCased leaf.kind && leaf.text != Text.upper leaf.text then
    state.report leaf.span .lowerCase
  else state

def checkOperands (t : Token) (following : List Node) (state : State) :
    Except Numeral.Fault State :=
  match t with
  | .poke => do
    let state ← checkRange (upTo .pokeComma following) (-addressLimit) addressLimit state
    match behind .pokeComma following with
    | none => return state
    | some operand => checkRange operand 0 byteLimit state
  | .peek => checkRange (upTo .close following.tail) (-addressLimit) addressLimit state
  | .color => checkRange following 0 byteLimit state
  | .call => checkRange following (-addressLimit) addressLimit state
  | _ => return state

def checkLeaf (settings : Settings) (seat : Seat) (leaf : Leaf) (state : State) :
    Except Numeral.Fault (Directive × State) :=
  let state := checkCase settings leaf state
  match leaf.kind with
  | .error cause => return (.child, state.report leaf.span (.badText cause))
  | .token .goto | .token .thenLine => checkBranch seat false state
  | .token .gosub => checkBranch seat true state
  | .token t => return (.child, ← checkOperands t seat.following state)
  | .name type =>
    if isDeclared seat then return (.child, state)
    else
      return (.child,
        checkVariable settings (nameVariable leaf.text type seat.following) leaf.span state)
  | _ => return (.child, state)

def checkInner (settings : Settings) (label : Label) (children : List Node) (state : State) :
    State :=
  match label.kind, children with
  | .line, _ =>
    if settings.warnLength < (Text.trimRight label.text).length then
      state.report label.span .longLine
    else state
  | .assignment _, first :: _ =>
    if !isToken .assign first && isIllegalName first.text then
      state.report first.span .illegalName
    else state
  | _, _ => state

def checkAt (settings : Settings) (seat : Seat) (state : State) :
    Except Numeral.Fault (Directive × State) :=
  match seat.node with
  | .leaf leaf => checkLeaf settings seat leaf state
  | .inner label children => return (.child, checkInner settings label children state)

/-- The second pass over a tree. -/
def checkPass (settings : Settings) (tree : Node) (state : State) :
    Except Numeral.Fault State :=
  tree.survey (checkAt settings) state

end IntegerBasic.Analysis
