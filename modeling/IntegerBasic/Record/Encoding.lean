import IntegerBasic.Numeral
import IntegerBasic.Record.Chars
import IntegerBasic.Record.Padding

/-!
# Records

A line is stored as a record: a byte that holds the length of the whole record, the line number
in two bytes with the low byte first, the tokens, and a byte that ends the line. A program is
its records one after another. A line whose body is longer than 126 bytes has no record.
-/

namespace IntegerBasic.Record

def endOfLine : UInt8 := 0x01

def openQuote : UInt8 := 0x28

def closeQuote : UInt8 := 0x29

def dollarSign : UInt8 := 0x40

/-- The greatest length of a body: everything between the length byte and the end of line. -/
def bodyLimit : Nat := 126

inductive Fault where
  | tooLong (row : Int) (lineNumber length : Nat)
  | numeral (fault : Numeral.Fault)
  | depth
  deriving DecidableEq, Repr

def Fault.message : Fault → String
  | .tooLong _ lineNumber length =>
    "Line " ++ toString lineNumber ++ " is " ++ toString length ++
      " bytes tokenized, the limit is 126"
  | .numeral fault => fault.message
  | .depth => Mismatch.message .depth

/-- The low and the high byte of a number, which is taken modulo 65536. -/
def wordBytes (n : Nat) : List UInt8 := [UInt8.ofNat n, UInt8.ofNat (n / 256)]

def wordValue (low high : UInt8) : Nat := low.toNat + 256 * high.toNat

theorem wordValue_wordBytes {n : Nat} (h : n ≤ 65535) :
    wordValue (UInt8.ofNat n) (UInt8.ofNat (n / 256)) = n := by
  rw [wordValue, UInt8.toNat_ofNat', UInt8.toNat_ofNat']
  omega

/-- The byte before a number: its first decimal digit with the high bit set. -/
def digitByte (n : Nat) : UInt8 := highByte ((Numeral.decimal n).headD '0')

/-- A name: its characters with the high bit set, but for the dollar sign. -/
def storeName (text : List Char) : List UInt8 :=
  (Text.upper (text.filter (!Text.isBlank ·))).map fun c =>
    if c == '$' then dollarSign else highByte c

/-- Text that fits no rule: its characters without blanks, in upper case. -/
def storeRaw (text : List Char) : List UInt8 :=
  (Text.upper (text.filter (!Text.isBlank ·))).map fun c => UInt8.ofNat c.toNat

def storeLeaf (leaf : Leaf) : Except Numeral.Fault (List UInt8) :=
  match leaf.kind with
  | .lineNumber => return wordBytes (← Numeral.readToken leaf.text)
  | .lineArgument | .integer => do
    let n ← Numeral.readToken leaf.text
    return digitByte n :: wordBytes n
  | .token t => return [t.byte]
  | .name _ => return storeName leaf.text
  | .string => return openQuote :: storeText leaf.text.tail.dropLast ++ [closeQuote]
  | .comment => return storeText leaf.text
  | .error _ => return storeRaw leaf.text

/-- The bytes of a run of leaves. -/
def storeLeaves (leaves : List Leaf) : Except Numeral.Fault (List UInt8) :=
  return (← leaves.mapM storeLeaf).flatten

def body (text : List Char) : Except Numeral.Fault (List UInt8) :=
  storeLeaves (Grammar.line 0 (padNumbers text)).leaves

def bodyNumber : List UInt8 → Nat
  | low :: high :: _ => wordValue low high
  | _ => 0

def wrap (body : List UInt8) : List UInt8 := UInt8.ofNat (body.length + 2) :: body ++ [endOfLine]

/-- The record of a body that stands in the given row, unless it is too long. -/
def ofBody (row : Int) (body : List UInt8) : Except Fault (List UInt8) :=
  if bodyLimit < body.length then .error (.tooLong row (bodyNumber body) body.length)
  else .ok (wrap body)

/-- The record of the line in the given row. -/
def ofLine (row : Int) (text : List Char) : Except Fault (List UInt8) := do
  ofBody row (← (body text).mapError .numeral)

/-- The records of a program, each with its row; the blank lines have none. -/
def ofProgram (text : List Char) : Except Fault (List (Nat × List UInt8)) :=
  (Grammar.numberedRows text).mapM fun (row, line) => return (row, ← ofLine row line)

/-- The stored form of a program. -/
def store (text : List Char) : Except Fault (List UInt8) :=
  return ((← ofProgram text).map (·.2)).flatten

end IntegerBasic.Record
