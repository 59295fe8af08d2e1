import IntegerBasic.Record.Encoding
import IntegerBasic.Token.Listing

/-!
# Listing of records

A record is listed by its content: tokens are read up to the byte that ends the line, and the
length byte is not looked at. Words of more than one character are set off by spaces. The bytes
from an address on are all that a listing sees, so the functions here take just those bytes and
say how many are left.
-/

namespace IntegerBasic.Record

def remToken : UInt8 := 0x5D

/-- A byte that announces a number in the two bytes behind it. -/
def isDigitByte (b : UInt8) : Bool := 0xB0 ≤ b && b ≤ 0xB9

def isWide (word : List Char) : Bool := 1 < word.length && word != ['<', '>']

/-- A token's word, given whether a space stands right before it, and whether one stands at its
end. There is no space behind a parenthesis or an equals sign. -/
def spacedWord (word : List Char) (spaced : Bool) : List Char × Bool :=
  if isWide word then
    let lead := if spaced then [] else [' ']
    if word.getLast? == some '(' || word.getLast? == some '=' then (lead ++ word, false)
    else (lead ++ word ++ [' '], true)
  else (word, false)

/-- The listing word of a token, where a byte without a word shows as question marks. -/
def tokenWord (b : UInt8) : List Char :=
  let word := Token.listingWord b
  if word.isEmpty then "???".toList else word.toList

def isHigh (b : UInt8) : Bool := 128 ≤ b

/-- A name: bytes with the high bit set, as characters. -/
def nameText (bytes : List UInt8) : List Char := bytes.map fun b => Char.ofNat (b.toNat - 128)

/-- A text ends in a space, where an empty text counts as what stands before it. -/
def endsSpaced (before : Bool) (text : List Char) : Bool :=
  match text.getLast? with
  | none => before
  | some c => c == ' '

/-- The tokens of a record as text, and the bytes from the end of the line on. No text means that
the bytes ran out before the line ended; then the bytes left tell where. -/
def listTokens (escapes : List Int) (spaced : Bool) (bytes : List UInt8) :
    Option (List Char) × List UInt8 :=
  match bytes with
  | [] => (none, [])
  | b :: rest =>
    if b == endOfLine then (some [], bytes)
    else if b == openQuote then
      match _h : showText escapes [closeQuote.toNat, endOfLine.toNat] rest with
      | (text, after) =>
        if after.head? == some closeQuote then
          let (more, left) := listTokens escapes false after.tail
          (more.map fun more => '"' :: text ++ '"' :: more, left)
        else
          let (more, left) := listTokens escapes (endsSpaced false text) after
          (more.map fun more => '"' :: text ++ more, left)
    else if b == remToken then
      match _h : showText escapes [endOfLine.toNat] rest with
      | (text, after) =>
        let (more, left) := listTokens escapes (endsSpaced false text) after
        (more.map fun more => (if spaced then [] else [' ']) ++ "REM".toList ++ text ++ more, left)
    else if b < 128 then
      let (word, spaced) := spacedWord (tokenWord b) spaced
      let (more, left) := listTokens escapes spaced rest
      (more.map (word ++ ·), left)
    else if isDigitByte b then
      match rest with
      | low :: high :: after =>
        let (more, left) := listTokens escapes false after
        (more.map (Numeral.decimal (wordValue low high) ++ ·), left)
      | _ => (none, bytes)
    else
      let name := nameText (b :: rest.takeWhile isHigh)
      let (more, left) := listTokens escapes (endsSpaced false name) (rest.dropWhile isHigh)
      (more.map (name ++ ·), left)
termination_by bytes.length
decreasing_by
  all_goals simp only [List.length_cons]
  · have := length_showText escapes [closeQuote.toNat, endOfLine.toNat] rest
    rw [_h] at this
    simp only [List.length_tail] at *
    omega
  · have := length_showText escapes [closeQuote.toNat, endOfLine.toNat] rest
    rw [_h] at this
    simp only at this
    omega
  · have := length_showText escapes [endOfLine.toNat] rest
    rw [_h] at this
    simp only at this
    omega
  · omega
  · omega
  · have := (List.dropWhile_suffix isHigh (l := rest)).length_le
    omega

structure Listed where
  line : Option (List Char)
  consumed : Nat
  deriving DecidableEq, Repr

/-- The record whose bytes behind the length byte are given; none if there is not even a line
number. -/
def list? (escapes : List Int) (bytes : List UInt8) : Option Listed :=
  match bytes with
  | low :: high :: tokens =>
    let number := Numeral.decimal (wordValue low high) ++ [' ']
    match listTokens escapes true tokens with
    | (none, left) => some ⟨none, bytes.length - left.length⟩
    | (some text, left) => some ⟨some (number ++ text), bytes.length - left.length + 1⟩
  | _ => none

structure Listing where
  lines : List (List Char)
  truncated : Option Nat
  deriving DecidableEq, Repr

/-- The records from an address on, as long as the address is below `stop` and at least four
bytes are there. The listing ends with the first record that runs out of bytes. -/
def listAll (escapes : List Int) (address : Nat) (stop : Int) (bytes : List UInt8) : Listing :=
  match bytes with
  | _ :: low :: high :: next :: rest =>
    if (address : Int) < stop then
      match list? escapes (low :: high :: next :: rest) with
      | none => ⟨[], none⟩
      | some ⟨none, consumed⟩ => ⟨[], some (address + 1 + consumed)⟩
      | some ⟨some line, consumed⟩ =>
        let more := listAll escapes (address + 1 + consumed) stop
          ((low :: high :: next :: rest).drop consumed)
        ⟨line :: more.lines, more.truncated⟩
    else ⟨[], none⟩
  | _ => ⟨[], none⟩
termination_by bytes.length
decreasing_by simp only [List.length_drop, List.length_cons]; omega

/-- The text of a listing: every line with a line feed behind it. -/
def Listing.text (listing : Listing) : List Char := listing.lines.flatMap (· ++ ['\n'])

end IntegerBasic.Record
