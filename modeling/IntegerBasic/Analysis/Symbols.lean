import IntegerBasic.Table
import IntegerBasic.Text.Blank
import IntegerBasic.Text.UpperCase
import IntegerBasic.Tree.Cursor

/-!
# Symbols

The line numbers and variables of a program with the places where they occur. Both tables keep
the order in which their entries were found. A variable is known by its name in upper case
without spaces, so `a` and `A` are one variable while `A` and `A$` are two.
-/

namespace IntegerBasic.Analysis

structure LineInfo where
  primary : Span
  /-- The text of the last remark of the line. -/
  remark : List Char
  gosubs : List Span := []
  gotos : List Span := []
  deriving DecidableEq, Repr

structure VariableInfo where
  isArray : Bool
  isString : Bool
  declarations : List Span := []
  definitions : List Span := []
  references : List Span := []
  /-- The ways the name is written, without repetition. -/
  spellings : List (List Char) := []
  deriving DecidableEq, Repr

structure Symbols where
  lines : List (Nat × LineInfo) := []
  vars : List (List Char × VariableInfo) := []
  deriving DecidableEq, Repr

structure Variable where
  key : List Char
  spelling : List Char
  isArray : Bool
  isString : Bool
  deriving DecidableEq, Repr

def opensSubscript (node : Node) : Bool :=
  match node.token? with
  | some (.openElement _) | some .openSlice | some (.openDim _) => true
  | _ => false

/-- The variable that a name leaf stands for. It is an array if a subscript follows. -/
def nameVariable (text : List Char) (type : DataType) (following : List Node) : Variable :=
  let spelling := Text.withoutSpaces text
  ⟨Text.upper spelling, spelling, following.head?.any opensSubscript, type == .string⟩

/-- The variable of a node that can be assigned to: a name, or a name with a subscript. -/
def targetVariable? (node : Node) (following : List Node) : Option Variable :=
  match node with
  | .leaf ⟨.name type, text, _⟩ => some (nameVariable text type following)
  | .inner ⟨.element _, _, _⟩ (.leaf ⟨.name type, text, _⟩ :: more) =>
    some (nameVariable text type more)
  | _ => none

namespace VariableInfo

def note (v : Variable) (info : Option VariableInfo) : VariableInfo :=
  let info := info.getD { isArray := v.isArray, isString := v.isString }
  { info with
    isArray := info.isArray || v.isArray
    spellings := if info.spellings.contains v.spelling then info.spellings
      else info.spellings ++ [v.spelling] }

end VariableInfo

namespace Symbols

def findLine? (symbols : Symbols) (number : Nat) : Option LineInfo :=
  Table.get? symbols.lines number

def findVariable? (symbols : Symbols) (key : List Char) : Option VariableInfo :=
  Table.get? symbols.vars key

def addLine (symbols : Symbols) (number : Nat) (info : LineInfo) : Symbols :=
  { symbols with lines := Table.put symbols.lines number info }

def addVariable (symbols : Symbols) (v : Variable) (change : VariableInfo → VariableInfo) :
    Symbols :=
  { symbols with
    vars :=
      Table.alter symbols.vars v.key fun info => change (VariableInfo.note v info) }

def declare (symbols : Symbols) (v : Variable) (span : Span) : Symbols :=
  symbols.addVariable v fun info => { info with declarations := info.declarations ++ [span] }

def define (symbols : Symbols) (v : Variable) (span : Span) : Symbols :=
  symbols.addVariable v fun info => { info with definitions := info.definitions ++ [span] }

def refer (symbols : Symbols) (v : Variable) (span : Span) : Symbols :=
  symbols.addVariable v fun info => { info with references := info.references ++ [span] }

def branch (symbols : Symbols) (number : Nat) (isGosub : Bool) (span : Span) : Symbols :=
  let change (info : LineInfo) : LineInfo :=
    if isGosub then { info with gosubs := info.gosubs ++ [span] }
    else { info with gotos := info.gotos ++ [span] }
  { symbols with
    lines := symbols.lines.map fun (n, info) =>
      if n == number then (n, change info) else (n, info) }

end Symbols

end IntegerBasic.Analysis
