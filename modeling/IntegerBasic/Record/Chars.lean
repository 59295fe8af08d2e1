import IntegerBasic.Text.Hex
import IntegerBasic.Text.UpperCase

/-!
# Stored characters

The characters of names, strings and remarks are stored in upper case with the high bit set. A
text can hold any byte at all by an escape: a backslash, an `x` and two hexadecimal digits stand
for the byte itself. Showing bytes as text uses an escape for every byte that has no character
of its own, and protects a backslash that would read as the start of an escape.
-/

namespace IntegerBasic.Record

def highByte (c : Char) : UInt8 := UInt8.ofNat (c.toNat + 128)

def storeChars (s : List Char) : List UInt8 := (Text.upper s).map highByte

def escapeByte? (high low : Char) : Option UInt8 := do
  let h ← Text.hexValue? high
  let l ← Text.hexValue? low
  return UInt8.ofNat (16 * h + l)

/-- Text as bytes: an escape is the byte it names, any other character is stored as it is. -/
def storeText : List Char → List UInt8
  | [] => []
  | '\\' :: 'x' :: high :: low :: rest =>
    match escapeByte? high low with
    | some b => b :: storeText rest
    | none => storeChars ['\\'] ++ storeText ('x' :: high :: low :: rest)
  | c :: rest => storeChars [c] ++ storeText rest

def backslash : UInt8 := 0xDC

def isStoredHexDigit (b : UInt8) : Bool :=
  128 ≤ b && Text.isHexDigit (Char.ofNat (b.toNat - 128))

/-- These bytes, behind a backslash, would be shown as the rest of an escape. -/
def readsAsEscape (x high low : UInt8) : Bool :=
  x == 0xF8 && isStoredHexDigit high && isStoredHexDigit low

def escape (b : UInt8) : List Char := '\\' :: 'x' :: Text.hexByte b

/-- A byte that is always shown as an escape. -/
def needsEscape (escapes : List Int) (b : UInt8) : Bool :=
  escapes.contains (b.toNat : Int) || b == 255 || b < 128

def showPlain (escapes : List Int) (b : UInt8) : List Char :=
  if needsEscape escapes b then escape b else [Char.ofNat (b.toNat - 128)]

/-- One byte as text, given the bytes behind it. A backslash with three bytes behind it is an
escape only where it would otherwise be taken for the start of one. -/
def showByte (escapes : List Int) (b : UInt8) (behind : List UInt8) : List Char :=
  match behind with
  | x :: high :: low :: _ =>
    if b == backslash then
      if readsAsEscape x high low then ['\\', 'x', '5', 'c'] else ['\\']
    else showPlain escapes b
  | _ => showPlain escapes b

/-- Bytes as text up to a terminator, and the bytes from the terminator on. -/
def showText (escapes terminators : List Int) : List UInt8 → List Char × List UInt8
  | [] => ([], [])
  | b :: behind =>
    if terminators.contains (b.toNat : Int) then ([], b :: behind)
    else
      let (text, rest) := showText escapes terminators behind
      (showByte escapes b behind ++ text, rest)

theorem length_showText (escapes terminators : List Int) (bytes : List UInt8) :
    (showText escapes terminators bytes).2.length ≤ bytes.length := by
  induction bytes with
  | nil => simp [showText]
  | cons b behind ih =>
    simp only [showText]
    split
    · simp
    · simp only [List.length_cons]; omega

end IntegerBasic.Record
