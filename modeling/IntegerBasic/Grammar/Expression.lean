import IntegerBasic.Grammar.Rule
import IntegerBasic.Text.Alphanumeric

/-!
# Expressions

An expression is read as a flat run of nodes: operands with operators between them, where a
subscripted variable is one node. There is no precedence here, since the stored program has
none either. The value of the rule is the type of the expression as far as the reader of a
listing has to know it: a lone string operand makes it a string, anything else an integer.

The rules for operands take the rule for whole expressions as an argument. The knot is tied by
`expressionUpTo`, which counts how deep parentheses may still nest; the length of the text is
always deep enough. How deep they may nest on a stack of a given size is another matter.
-/

namespace IntegerBasic.Grammar

open Rule

/-- The binary operators in the order in which they are tried: the longer first. -/
def binaryOperators : List Token := [
  .unequal, .lessEqual, .greaterEqual, .less, .greater, .equal, .hash, .plus, .minus, .times,
  .divide, .power, .conjunction, .disjunction, .modulo]

/-- The functions in the order in which they are tried. -/
def functions : List Token := [.scrn, .asc, .len, .peek, .rnd, .sgn, .abs, .pdl]

/-- The operator as it is stored behind an operand: strings have comparisons of their own. -/
def operatorAfter (lhs : DataType) (operator : Token) : Token :=
  match lhs, operator with
  | .string, .unequal => .unequalString
  | .string, .equal => .equalString
  | .string, .hash => .unequalString
  | _, _ => operator

def firstWord? (words : List Token) (s : List Char) : Option Token :=
  words.find? fun t => (Lexeme.word t.spelling.toList s).isSome

/-- The first function that comes next. One whose spelling has no parenthesis needs one
behind it. -/
def function? (s : List Char) : Option Token :=
  functions.find? fun t =>
    match Lexeme.word t.spelling.toList s with
    | none => false
    | some (_, rest) => t.includesParen || Lexeme.opensNext rest

/-- The word `NOT`, unless a letter or digit follows it. -/
def negation : Lexeme.Reader := fun s =>
  (Lexeme.word Token.negation.spelling.toList s).filter fun (_, rest) =>
    !(rest.head?.any Text.isAlphanumeric)

def variableName : Rule DataType := fun i =>
  match Lexeme.name i.skip.rest with
  | none => ⟨[], .error .name⟩
  | some (text, rest) =>
    let type := Lexeme.nameType text
    ⟨[i.skip.leaf (.name type) text], .ok (type, i.skip.after text rest)⟩

def stringLiteral : Rule Unit := do
  unless ← token? Lexeme.string .string do stop .stringEnd

def subscripted (expression : Rule DataType) (opener : Token) (kind : InnerKind)
    (pair : Bool) : Rule DataType :=
  enclose (fun _ => kind) do
    let type ← variableName
    expect opener
    let _ ← expression
    if pair then
      if ← word? .sliceComma then
        let _ ← expression
    expect .close
    return type

def isSubscripted (s : List Char) : Bool :=
  (Lexeme.name s).any fun (_, rest) => Lexeme.opensNext rest

def nextNameType (s : List Char) : DataType :=
  match Lexeme.name s with
  | none => .integer
  | some (text, _) => Lexeme.nameType text

def target (expression : Rule DataType) : Rule DataType := do
  if ← ahead isSubscripted then
    if ← ahead (nextNameType · == .string) then
      subscripted expression (.openElement .string) (.element .string) false
    else
      subscripted expression (.openElement .integer) (.element .integer) false
  else variableName

/-- A variable in an expression. A subscripted string is a slice, whose subscript may be a
pair. -/
def reference (expression : Rule DataType) : Rule DataType := do
  if ← ahead isSubscripted then
    if ← ahead (nextNameType · == .string) then
      subscripted expression .openSlice .slice true
    else
      subscripted expression (.openElement .integer) (.element .integer) false
  else variableName

/-- A function with its arguments. -/
def call (expression : Rule DataType) (f : Token) : Rule DataType := do
  expect f
  unless f.includesParen do expect .openCall
  let _ ← expression
  if f == .scrn then
    expect .scrnComma
    let _ ← expression
  expect .close
  return .integer

/-- An operand without the signs before it. An expression in parentheses is read by `near`, one in
a subscript or behind a function by `far`. -/
def primaryOf (near far : Rule DataType) : Rule DataType := do
  if ← token? Lexeme.integer .integer then return .integer
  let next ← peek
  if next == some '"' then
    stringLiteral
    return .string
  if next == some '(' then
    expect .openParen
    let _ ← near
    expect .close
    return .integer
  fun i => match function? i.skip.rest with
    | some f => call far f i
    | none =>
      if (Lexeme.name i.skip.rest).isSome then reference far i
      else stop .expression i

def primary (expression : Rule DataType) : Rule DataType := primaryOf expression expression

def unaryOperator : Rule Bool := do
  if ← word? .unaryMinus then return true
  if ← word? .unaryPlus then return true
  token? negation (.token .negation)

/-- An operand. Any sign before it makes it an integer. -/
def operandOf (primary : Rule DataType) : Rule DataType := do
  let signed ← loop (fun _ => do return if ← unaryOperator then some true else none) false
  let type ← primary
  return if signed then .integer else type

def operand (expression : Rule DataType) : Rule DataType := operandOf (primary expression)

def binaryOperator (lhs : DataType) : Rule Bool := fun i =>
  match firstWord? binaryOperators i.skip.rest with
  | none => ⟨[], .ok (false, i.skip)⟩
  | some t => token? (Lexeme.word t.spelling.toList) (.token (operatorAfter lhs t)) i

/-- Operands with operators between them. -/
def operandsOf (operand : Rule DataType) : Rule DataType := do
  let first ← operand
  let (type, alone) ← loop (fun (lhs, _) => do
    if ← binaryOperator lhs then
      let rhs ← operand
      return some (rhs, false)
    else return none) (first, true)
  return if alone then type else .integer

def operands (expression : Rule DataType) : Rule DataType := operandsOf (operand expression)

/-- An expression whose parentheses nest less than `n` deep. -/
def expressionUpTo : Nat → Input → Reading DataType
  | 0, i => stop .expression i
  | n + 1, i => operands (expressionUpTo n) i

def expression : Rule DataType := fun i => expressionUpTo (i.rest.length + 1) i

end IntegerBasic.Grammar
