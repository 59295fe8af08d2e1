import IntegerBasic.Json

/-!
# Writing JSON

A value as one line of JSON text in ASCII. A number with a fraction is written with all its
digits.
-/

namespace IntegerBasic.Json

def unitEscape (n : Nat) : List Char := '\\' :: 'u' :: Text.hexFixed 4 n

def printChar (c : Char) : List Char :=
  if c == '"' || c == '\\' then ['\\', c]
  else if 0x20 ≤ c.toNat && c.toNat < 0x7F then [c]
  else if c.toNat < 0x10000 then unitEscape c.toNat
  else
    let n := c.toNat - 0x10000
    unitEscape (0xD800 + n / 0x400) ++ unitEscape (0xDC00 + n % 0x400)

def printString (s : String) : String :=
  "\"" ++ String.ofList (s.toList.flatMap printChar) ++ "\""

def printReal : Binary64 → String
  | .nan => "NaN"
  | .infinity negative => if negative then "-Infinity" else "Infinity"
  | .finite negative m e =>
    let sign := if negative then "-" else ""
    if e < 0 then
      sign ++ toString (m * Nat.pow 5 e.natAbs) ++ "e-" ++ toString e.natAbs
    else sign ++ toString (m <<< e.natAbs) ++ ".0"

mutual
def print : Json → String
  | .null => "null"
  | .bool b => if b then "true" else "false"
  | .int n => toString n
  | .real x => printReal x
  | .str s => printString s
  | .arr items => "[" ++ printItems items ++ "]"
  | .obj fields => "\x7b" ++ printFields fields ++ "\x7d"
def printItems : List Json → String
  | [] => ""
  | [item] => item.print
  | item :: more => item.print ++ "," ++ printItems more
def printFields : List (String × Json) → String
  | [] => ""
  | [(key, item)] => printString key ++ ":" ++ item.print
  | (key, item) :: more => printString key ++ ":" ++ item.print ++ "," ++ printFields more
end

end IntegerBasic.Json
