import IntegerBasic.Grammar.Expression

/-!
# Statements

A statement is first read by the word it begins with. If the rest does not fit that word, the
same text is read again as an assignment without `LET`, because words are not reserved. If that
does not fit either, the nodes that the word's rule had recognized are kept and what remains of
the statement becomes an error leaf.
-/

namespace IntegerBasic.Grammar

open Rule

inductive Form where
  /-- A word alone. -/
  | bare (t : Token)
  /-- A word and an expression. -/
  | single (t : Token)
  /-- A word and two expressions. -/
  | pair (t separator : Token)
  /-- A word, two expressions, and a third behind `AT`. -/
  | draw (t separator position : Token)
  /-- A word and up to two line numbers. The word is another token if a number follows. -/
  | lineRange (t numbered : Token) (separator : Option Token)
  /-- A word and the name of a variable, whose type settles the token. -/
  | display (isOn : Bool)
  | forLoop
  | nextLoop
  | dimension
  | inputList
  | printList
  | conditional
  | remark
  | assignment
  deriving DecidableEq, Repr

namespace Form

def token : Form → Token
  | .bare t | .single t | .pair t _ | .draw t _ _ | .lineRange t _ _ => t
  | .display isOn => if isOn then .dsp .integer else .nodsp .integer
  | .forLoop => .forLoop
  | .nextLoop => .next
  | .dimension => .dim .integer
  | .inputList => .input .integer
  | .printList => .print none
  | .conditional => .condition
  | .remark => .rem
  | .assignment => .assign

/-- The forms of statement that begin with a word, the longer words first. -/
def all : List Form := [
  .bare .notrace,
  .single .color, .single .himem, .single .lomem, .bare .returning,
  .single .gosub, .inputList, .display false, .printList, .bare .trace,
  .lineRange .auto .auto (some .autoComma), .single .call, .single .goto,
  .draw .hlin .hlinComma .hlinAt, .lineRange .list .listLine (some .listComma), .bare .load,
  .nextLoop, .pair .plot .plotComma, .pair .poke .pokeComma, .bare .save, .bare .text,
  .draw .vlin .vlinComma .vlinAt, .single .vtab,
  .bare .clr, .bare .con, .lineRange .del .del (some .delComma), .dimension, .display true,
  .bare .stop, .forLoop, .single .inSlot, .assignment, .bare .man, .bare .new, .bare .pop,
  .single .prSlot, .remark, .lineRange .run .runLine none, .single .tab,
  .bare .gr, .conditional]

def ofText? (s : List Char) : Option Form :=
  all.find? fun form => (Lexeme.word form.token.spelling.toList s).isSome

end Form

def assignmentOf (near far : Rule DataType) (word : Option Token) : Rule DataType :=
  enclose .assignment do
    if let some t := word then expect t
    let type ← target far
    expect (.equals type)
    let _ ← near
    return type

def assignmentRule (word : Option Token) : Rule DataType := assignmentOf expression expression word

def integerName : Rule Unit := do
  if (← variableName) == .string then stop .integerName

/-- The subscript that declares how large a variable is. -/
def extentOf (expression : Rule DataType) (type : DataType) : Rule Unit := do
  expect (.openDim type)
  let _ ← expression
  expect .close

def extent (type : DataType) : Rule Unit := extentOf expression type

def repeated (separator : Token) (item : Rule Unit) : Rule Unit :=
  loop (fun _ => do
    if ← word? separator then
      item
      return some ()
    else return none) ()

/-- The items of `PRINT` end here: the statement does, or a separator follows. -/
def noItem : Rule Bool := do
  let next ← peek
  return next == none || next == some ':' || next == some ',' || next == some ';'

def printItemOf (expression : Rule DataType) : Rule (Option DataType) := do
  if ← noItem then return none
  return some (← expression)

def printItem : Rule (Option DataType) := printItemOf expression

/-- A separator of `PRINT` and the item that may follow it, which settles the token. -/
def printTailOf (printItem : Rule (Option DataType)) : Rule (Option Unit) := do
  let next ← peek
  if next == some ',' then
    let _ ← wordThen (.comma none) .comma printItem
    return some ()
  if next == some ';' then
    let _ ← wordThen (.semicolon none) .semicolon printItem
    return some ()
  return none

def printTail : Rule (Option Unit) := printTailOf printItem

/-- What `INPUT` has read before it goes on to its list: a prompt, or the first target. -/
inductive InputHead where
  | prompt
  | target (type : DataType)
  deriving DecidableEq, Repr

def InputHead.token : InputHead → Token
  | .prompt => .inputPrompt
  | .target type => .input type

/-- The rule of a form. What the rule reads itself is read by `near`, and what it leaves to a rule in
between by `far`. A statement behind `THEN` is read by `nested`. -/
def Form.ruleOf (near far : Rule DataType) (nested : Rule Unit) : Form → Rule Unit
  | .bare t => expect t
  | .single t => do
    expect t
    let _ ← near
  | .pair t separator => do
    expect t
    let _ ← near
    expect separator
    let _ ← near
  | .draw t separator position => do
    expect t
    let _ ← far
    expect separator
    let _ ← far
    expect position
    let _ ← near
  | .lineRange t numbered separator => do
    let isNumbered ← wordThen t (fun isNumbered => if isNumbered then numbered else t)
      (token? Lexeme.integer .lineArgument)
    if isNumbered then
      if let some comma := separator then
        if ← word? comma then
          unless ← token? Lexeme.integer .lineArgument do stop .lineNumber
  | .display isOn => do
    let _ ← if isOn then wordThen (.dsp .integer) .dsp variableName
      else wordThen (.nodsp .integer) .nodsp variableName
  | .forLoop => do
    expect .forLoop
    integerName
    expect .forEquals
    let _ ← near
    expect .toLimit
    let _ ← near
    if ← word? .stepBy then
      let _ ← near
  | .nextLoop => do
    expect .next
    integerName
    repeated .nextComma integerName
  | .dimension => do
    let type ← wordThen (.dim .integer) .dim variableName
    extentOf near type
    repeated .dimComma do extentOf near (← variableName)
  | .inputList => do
    let head ← wordThen (.input .integer) InputHead.token do
      if (← peek) == some '"' then
        stringLiteral
        expect .promptComma
        return .prompt
      else return .target (← target far)
    if head == .prompt then
      let _ ← target far
    repeated .inputComma do let _ ← target far
  | .printList => do
    let _ ← wordThen (.print none) .print (printItemOf near)
    loop (fun _ => printTailOf (printItemOf near)) ()
  | .conditional => do
    expect .condition
    let _ ← near
    let isLine ← wordThen .thenStatement
      (fun isLine => if isLine then .thenLine else .thenStatement)
      (ahead fun s => (Lexeme.integer s).isSome)
    if isLine then
      let _ ← near
    else if ← atEnd then stop .statement
    else nested
  | .remark => do
    expect .rem
    fun i =>
      if i.rest.isEmpty then ⟨[], .ok ((), i)⟩
      else ⟨[i.leaf .comment i.rest], .ok ((), i.after i.rest [])⟩
  | .assignment => do
    let _ ← assignmentOf near far (some .assign)

/-- The rule of a form, given how to read the statement behind `THEN`. -/
def Form.rule (nested : Input → Node × Input) : Form → Rule Unit :=
  Form.ruleOf expression expression fun i =>
    let (node, j) := nested i
    ⟨[node], .ok ((), j)⟩

/-- A rule that has to read a whole statement. -/
def whole {α : Type} (r : Rule α) : Rule Unit := do
  let _ ← r
  unless ← atEnd do stop .surplus

/-- The text up to the colon that ends a statement, or all of it. A colon between quotes ends
nothing. -/
def statementText : Bool → List Char → List Char
  | _, [] => []
  | quoted, c :: rest =>
    if c == ':' && !quoted then []
    else c :: statementText (if c == '"' then !quoted else quoted) rest

/-- The statement that begins at `i` with the nodes recognized in it, where the text behind
them is an error. The place behind it is where the statement's text ends. -/
def recover (i : Input) (nodes : List Node) (cause : Mismatch) : Node × Input :=
  let text := statementText false i.rest
  let start := (nodes.getLast?.map (·.span.stop.col)).getD i.col
  let stop := max start (i.col + (Text.trimRight text).length)
  let error := Node.leaf ⟨.error cause, i.slice start stop, ⟨⟨i.row, start⟩, ⟨i.row, stop⟩⟩⟩
  (i.enclose .statement (nodes ++ [error]), i.after text (i.rest.drop text.length))

/-- Chooses among what the word's rule and the rule for assignments made of a statement. -/
def settle (i : Input) (byWord : Option (Reading Unit)) (byName : Reading Unit) : Node × Input :=
  match byWord with
  | some ⟨nodes, .ok ((), j)⟩ => (i.enclose .statement nodes, j)
  | some ⟨nodes, .error cause⟩ =>
    match byName with
    | ⟨nodes, .ok ((), j)⟩ => (i.enclose .statement nodes, j)
    | ⟨_, .error _⟩ => recover i nodes cause
  | none =>
    match byName with
    | ⟨nodes, .ok ((), j)⟩ => (i.enclose .statement nodes, j)
    | ⟨nodes, .error cause⟩ => recover i nodes cause

/-- One statement, given how to read the statements nested in it. -/
def statementWith (nested : Input → Node × Input) (i : Input) : Node × Input :=
  settle i.skip ((Form.ofText? i.skip.rest).map fun form => whole (form.rule nested) i.skip)
    (whole (assignmentRule none) i.skip)

/-- One statement in which less than `n` others are nested. -/
def statementUpTo : Nat → Input → Node × Input
  | 0, i => recover i.skip [] .statement
  | n + 1, i => statementWith (statementUpTo n) i

/-- One statement and the place behind it. -/
def statement (i : Input) : Node × Input := statementUpTo (i.rest.length + 1) i

end IntegerBasic.Grammar
