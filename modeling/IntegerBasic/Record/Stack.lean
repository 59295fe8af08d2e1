import IntegerBasic.Grammar.Stack
import IntegerBasic.Record.Encoding

/-!
# Storing on a limited stack

A line is read twice before it is stored, and both times there may be too little room to read it.
One call leads from a program to a line, one from there to the reading of the line, and one more to
the reading before it, by which the numbers are found that are padded.
-/

namespace IntegerBasic.Record

def Fault.ofOverflow : Grammar.Overflow → Fault
  | .depth => .depth

def padNumbersOn (calls : Nat) (text : List Char) : Except Grammar.Overflow (List Char) := do
  return padEach (numbers (← Grammar.lineOn (calls - 1) 0 text)) text

def bodyOn (calls : Nat) (text : List Char) : Except Fault (List UInt8) := do
  let padded ← (padNumbersOn (calls - 1) text).mapError .ofOverflow
  let tree ← (Grammar.lineOn (calls - 1) 0 padded).mapError .ofOverflow
  (storeLeaves tree.leaves).mapError .numeral

def ofLineOn (calls : Nat) (row : Int) (text : List Char) : Except Fault (List UInt8) := do
  ofBody row (← bodyOn calls text)

def ofProgramOn (calls : Nat) (text : List Char) : Except Fault (List (Nat × List UInt8)) :=
  (Grammar.numberedRows text).mapM fun (row, line) =>
    return (row, ← ofLineOn (calls - 1) row line)

/-- The stored form of a program. -/
def storeOn (calls : Nat) (text : List Char) : Except Fault (List UInt8) :=
  return ((← ofProgramOn calls text).map (·.2)).flatten

end IntegerBasic.Record
