import IntegerBasic.Text.Hex

/-!
# UTF-8

Text as bytes and back. Strict reading stops at the first bytes that are no character, and says
which they are and what is wrong with them. Lenient reading keeps such bytes as stray characters and
goes on behind them. Stray characters cannot be written again. They stand in a private block that
none of the rules for text knows, and only where the text was read tells them from the characters of
that block.
-/

namespace IntegerBasic.Text.Utf8

inductive Cause where
  | start
  | continuation
  | ending
  deriving DecidableEq, Repr

def Cause.message : Cause → String
  | .start => "invalid start byte"
  | .continuation => "invalid continuation byte"
  | .ending => "unexpected end of data"

/-- Bytes that are no character: where they begin, how many they are, and the first of them. -/
structure Fault where
  cause : Cause
  position : Nat
  count : Nat
  first : UInt8
  deriving DecidableEq, Repr

def Fault.message (f : Fault) : String :=
  let place :=
    if f.count = 1 then
      "byte 0x" ++ String.ofList (hexByte f.first) ++ " in position " ++ toString f.position
    else
      "bytes in position " ++ toString f.position ++ "-" ++ toString (f.position + f.count - 1)
  "'utf-8' codec can't decode " ++ place ++ ": " ++ f.cause.message

def encode (s : List Char) : List UInt8 := s.flatMap String.utf8EncodeChar

def isContinuation (b : UInt8) : Bool := 0x80 ≤ b && b ≤ 0xBF

/-- The byte behind a first byte has to lie in a range that shuts out overlong forms,
surrogates, and codes beyond the last. -/
def isSecond (first b : UInt8) : Bool :=
  if first == 0xE0 then 0xA0 ≤ b && b ≤ 0xBF
  else if first == 0xED then 0x80 ≤ b && b ≤ 0x9F
  else if first == 0xF0 then 0x90 ≤ b && b ≤ 0xBF
  else if first == 0xF4 then 0x80 ≤ b && b ≤ 0x8F
  else isContinuation b

/-- How many bytes follow a first byte; none if the byte begins no character. -/
def followers? (b : UInt8) : Option Nat :=
  if b < 0x80 then some 0
  else if 0xC2 ≤ b && b ≤ 0xDF then some 1
  else if 0xE0 ≤ b && b ≤ 0xEF then some 2
  else if 0xF0 ≤ b && b ≤ 0xF4 then some 3
  else none

def leadBits (b : UInt8) : Nat → Nat
  | 0 => b.toNat
  | 1 => b.toNat - 0xC0
  | 2 => b.toNat - 0xE0
  | _ => b.toNat - 0xF0

/-- The bytes behind a first byte that belong to its character. -/
def valid (first : UInt8) (wanted : Nat) (rest : List UInt8) : List UInt8 :=
  match wanted, rest with
  | 0, _ | _, [] => []
  | n + 1, b :: more => if isSecond first b then b :: (more.take n).takeWhile isContinuation else []

def charOf (first : UInt8) (found : List UInt8) : Char :=
  Char.ofNat (found.foldl (fun n b => n * 64 + (b.toNat - 0x80)) (leadBits first found.length))

def decodeFrom (position : Nat) (bytes : List UInt8) : Except Fault (List Char) :=
  match bytes with
  | [] => .ok []
  | first :: rest =>
    match followers? first with
    | none => .error ⟨.start, position, 1, first⟩
    | some wanted =>
      let found := valid first wanted rest
      if found.length < wanted then
        let cause := if rest.length = found.length then .ending else .continuation
        .error ⟨cause, position, found.length + 1, first⟩
      else
        (decodeFrom (position + wanted + 1) (rest.drop wanted)).map (charOf first found :: ·)
termination_by bytes.length
decreasing_by simp only [List.length_drop, List.length_cons]; omega

def decode (bytes : List UInt8) : Except Fault (List Char) := decodeFrom 0 bytes

/-- The character that stands for a byte of none. -/
def stray (b : UInt8) : Char := Char.ofNat (0xE000 + b.toNat)

def isStray (c : Char) : Bool := 0xE080 ≤ c.toNat && c.toNat ≤ 0xE0FF

/-- Reads a text in which any bytes may stand. -/
def decodeLeniently : List UInt8 → List Char
  | [] => []
  | first :: rest =>
    match followers? first with
    | none => stray first :: decodeLeniently rest
    | some wanted =>
      let found := valid first wanted rest
      if found.length < wanted then
        (first :: found).map stray ++ decodeLeniently (rest.drop found.length)
      else charOf first found :: decodeLeniently (rest.drop wanted)
termination_by bytes => bytes.length
decreasing_by all_goals simp only [List.length_drop, List.length_cons]; omega

/-- Why a text with stray characters cannot be written. -/
def strayMessage (text : List Char) : String :=
  let position := (text.takeWhile (!isStray ·)).length
  let strays := (text.drop position).takeWhile isStray
  let place :=
    match strays with
    | [c] =>
      "character '\\udc" ++ String.ofList (hexByte (UInt8.ofNat c.toNat)) ++ "' in position " ++
        toString position
    | _ =>
      "characters in position " ++ toString position ++ "-" ++
        toString (position + strays.length - 1)
  "'utf-8' codec can't encode " ++ place ++ ": surrogates not allowed"

end IntegerBasic.Text.Utf8
