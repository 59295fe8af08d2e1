import IntegerBasic.Binary64
import IntegerBasic.Numeral
import IntegerBasic.Table

/-!
# JSON values

Settings and requests are JSON. Objects keep the order of their keys. A number with a fraction
or an exponent is a binary64 number, any other is a whole number of any size.
-/

namespace IntegerBasic

inductive Json where
  | null
  | bool (b : Bool)
  | int (n : Int)
  | real (x : Binary64)
  | str (s : String)
  | arr (items : List Json)
  | obj (fields : List (String × Json))

namespace Json

/-- Whether a value counts as yes: everything but null, false, zero and what is empty. -/
def isTruthy : Json → Bool
  | .null => false
  | .bool b => b
  | .int n => n != 0
  | .real x => !x.isZero
  | .str s => !s.isEmpty
  | .arr items => !items.isEmpty
  | .obj fields => !fields.isEmpty

inductive Fault where
  | numeral (fault : Numeral.Fault)
  | nan
  | infinite
  | wrongType
  deriving DecidableEq, Repr

def Fault.message : Fault → String
  | .numeral fault => fault.message
  | .nan => "cannot convert float NaN to integer"
  | .infinite => "cannot convert float infinity to integer"
  | .wrongType => "not a number"

/-- A value as a whole number: fractions are dropped, yes and no are one and zero, and text is
read as a numeral. -/
def toInteger : Json → Except Fault Int
  | .int n => .ok n
  | .bool b => .ok (if b then 1 else 0)
  | .real (.finite negative m e) => .ok (Binary64.whole negative m e)
  | .real (.infinity _) => .error .infinite
  | .real .nan => .error .nan
  | .str s => (Numeral.read s.toList).mapError .numeral
  | .null | .arr _ | .obj _ => .error .wrongType

end Json

end IntegerBasic
