import IntegerBasic.Tree.Node

/-!
# Diagnostics

What an analysis finds to say about a place in a program. A finding fixes both the words and
how grave the matter is.
-/

namespace IntegerBasic.Analysis

inductive Severity where
  | error
  | warning
  | information
  deriving DecidableEq, Repr

def Severity.shown : Severity → String
  | .error => "error"
  | .warning => "warning"
  | .information => "information"

/-- The number that editors know the severity by. -/
def Severity.level : Severity → Nat
  | .error => 1
  | .warning => 2
  | .information => 3

inductive Finding where
  /-- A number is not between two bounds. -/
  | outOfRange (low high : Int)
  /-- A line number is not greater than the one before it. -/
  | outOfOrder
  /-- A branch goes to a line that is missing, perhaps because of an error. -/
  | unsureBranch
  /-- A branch goes to a line that is missing. -/
  | deadBranch
  | undeclaredArray
  | undeclaredString
  | unassigned
  /-- An array is used without a subscript. -/
  | firstElement
  /-- A name that begins with the word of a statement. -/
  | illegalName
  | lowerCase
  | longLine
  | badText (cause : Mismatch)
  deriving DecidableEq, Repr

def Finding.severity : Finding → Severity
  | .outOfRange _ _ | .outOfOrder | .deadBranch | .illegalName | .badText _ => .error
  | .firstElement => .information
  | _ => .warning

def Finding.message : Finding → String
  | .outOfRange low high => "Out of range (" ++ toString low ++ "," ++ toString high ++ ")"
  | .outOfOrder => "Line number out of order"
  | .unsureBranch => "Maybe unanalyzed (fix line)"
  | .deadBranch => "Line does not exist"
  | .undeclaredArray => "array is never DIM'd"
  | .undeclaredString => "string is never DIM'd"
  | .unassigned => "variable is never assigned"
  | .firstElement => "unsubscripted integer array returns the first element"
  | .illegalName => "illegal variable name, try LET"
  | .lowerCase => "settings require upper case"
  | .longLine => "Line may be too long"
  | .badText cause => "syntax error: " ++ cause.message

structure Diagnostic where
  span : Span
  finding : Finding
  deriving DecidableEq, Repr

end IntegerBasic.Analysis
