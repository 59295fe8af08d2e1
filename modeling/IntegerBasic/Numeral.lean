import IntegerBasic.Text.Blank
import IntegerBasic.Text.DecimalDigit
import IntegerBasic.Text.Quoted

/-!
# Numerals

Reading of whole numbers that a user wrote: blanks around, one sign, decimal digits of any
script, and single underscores between digits. A numeral of more than 4300 digits is refused,
before anything behind its digits is looked at. How deep the rules of the grammar may call one
another is a limit of its own, which is kept in `Grammar/Stack`.
-/

namespace IntegerBasic.Numeral

inductive Fault where
  | malformed (text : List Char)
  | tooLong (digits : Nat)
  /-- A number has too many digits to be written. -/
  | unshowable
  deriving DecidableEq, Repr

def Fault.message : Fault → String
  | .malformed text =>
    "invalid literal for int() with base 10: " ++ String.ofList ((Text.quoted text).take 200)
  | .tooLong digits =>
    "Exceeds the limit (4300 digits) for integer string conversion: value has " ++
      toString digits ++ " digits; use sys.set_int_max_str_digits() to increase the limit"
  | .unshowable =>
    "Exceeds the limit (4300 digits) for integer string conversion; " ++
      "use sys.set_int_max_str_digits() to increase the limit"

/-- The greatest number of digits, leading zeros included. -/
def digitLimit : Nat := 4300

/-- A blank that may stand around a numeral: any but the four information separators. -/
def isEdge (c : Char) : Bool := Text.isBlank c && !(28 ≤ c.toNat && c.toNat ≤ 31)

/-- The value of a run of digit values. -/
def valueOf (digits : List Nat) : Nat := digits.foldl (fun n d => 10 * n + d) 0

def digitGroups : List Char → List (List Nat)
  | [] => [[]]
  | c :: rest =>
    match Text.digitValue? c with
    | none => [] :: digitGroups rest
    | some d =>
      match digitGroups rest with
      | [] => [[d]]
      | group :: groups => (d :: group) :: groups

/-- A digit, or an underscore between digits. -/
def isInner (c : Char) : Bool := (Text.digitValue? c).isSome || c == '_'

def splitSign : List Char → Int × List Char
  | '-' :: rest => (-1, rest)
  | '+' :: rest => (1, rest)
  | s => (1, s)

def read (text : List Char) : Except Fault Int :=
  let (sign, s) := splitSign (text.dropWhile isEdge)
  let groups := digitGroups (s.takeWhile isInner)
  let digits := groups.flatten
  if groups.any List.isEmpty then .error (.malformed text)
  else if digitLimit < digits.length then .error (.tooLong digits.length)
  else if (s.dropWhile isInner).all isEdge then .ok (sign * valueOf digits)
  else .error (.malformed text)

/-- The value of the ASCII digits in a text, whatever stands between them. -/
def digitsValue (text : List Char) : Nat :=
  valueOf ((text.filter Char.isDigit).map fun c => c.toNat - '0'.toNat)

/-- Reads the number of a token, which is made of ASCII digits and blanks. -/
def readToken (text : List Char) : Except Fault Nat :=
  let count := (text.filter Char.isDigit).length
  if digitLimit < count then .error (.tooLong count) else .ok (digitsValue text)

def decimal (n : Nat) : List Char := Nat.toDigits 10 n

def decimalInt (n : Int) : List Char :=
  if n < 0 then '-' :: decimal n.natAbs else decimal n.natAbs

/-- A number that can be written with no more digits than can be read. -/
def isShowable (n : Int) : Bool := (decimal n.natAbs).length ≤ digitLimit

end IntegerBasic.Numeral
