import IntegerBasic.Json

/-!
# Reading JSON

A reader of JSON texts that says where and why a text is refused. Beyond the standard it takes
the words `NaN`, `Infinity` and `-Infinity` as numbers. Of two fields with one key the later
value counts, in the place of the earlier.
-/

namespace IntegerBasic.Json

namespace Reader

inductive Cause where
  | byteOrderMark
  | value
  | propertyName
  | colon
  | comma
  | surplus
  | unterminated
  | control
  | escape
  | unicodeEscape
  | numeral (fault : Numeral.Fault)
  deriving DecidableEq, Repr

def Cause.message : Cause → String
  | .byteOrderMark => "Unexpected UTF-8 BOM (decode using utf-8-sig)"
  | .value => "Expecting value"
  | .propertyName => "Expecting property name enclosed in double quotes"
  | .colon => "Expecting ':' delimiter"
  | .comma => "Expecting ',' delimiter"
  | .surplus => "Extra data"
  | .unterminated => "Unterminated string starting at"
  | .control => "Invalid control character at"
  | .escape => "Invalid \\escape"
  | .unicodeEscape => "Invalid \\uXXXX escape"
  | .numeral fault => fault.message

structure Problem where
  cause : Cause
  position : Nat
  deriving DecidableEq, Repr

/-- The problem in words, with the place given as line, column and character of the text. -/
def Problem.message (p : Problem) (text : List Char) : String :=
  match p.cause with
  | .numeral fault => fault.message
  | cause =>
    let before := text.take p.position
    let line := before.count '\n' + 1
    let column := (before.reverse.takeWhile (· != '\n')).length + 1
    cause.message ++ ": line " ++ toString line ++ " column " ++ toString column ++ " (char " ++
      toString p.position ++ ")"

structure Place where
  position : Nat
  rest : List Char

def Place.drop (p : Place) (n : Nat) : Place := ⟨p.position + n, p.rest.drop n⟩

def isWhite (c : Char) : Bool := c == ' ' || c == '\t' || c == '\n' || c == '\r'

def Place.skip (p : Place) : Place := p.drop (p.rest.takeWhile isWhite).length

def fail {α : Type} (cause : Cause) (position : Nat) : Except Problem α :=
  .error ⟨cause, position⟩

def hexFour? (a b c d : Char) : Option Nat := do
  let a ← Text.hexValue? a
  let b ← Text.hexValue? b
  let c ← Text.hexValue? c
  let d ← Text.hexValue? d
  return ((a * 16 + b) * 16 + c) * 16 + d

def simpleEscape? : Char → Option Char
  | '"' => some '"'
  | '\\' => some '\\'
  | '/' => some '/'
  | 'b' => some '\x08'
  | 'f' => some '\x0c'
  | 'n' => some '\n'
  | 'r' => some '\r'
  | 't' => some '\t'
  | _ => none

/-- The text of a run of codes, where two surrogates in a row stand for one character. -/
def joinSurrogates : List Nat → List Char
  | high :: low :: rest =>
    if 0xD800 ≤ high ∧ high < 0xDC00 ∧ 0xDC00 ≤ low ∧ low < 0xE000 then
      Char.ofNat (0x10000 + (high - 0xD800) * 0x400 + (low - 0xDC00)) :: joinSurrogates rest
    else Char.ofNat high :: joinSurrogates (low :: rest)
  | [code] => [Char.ofNat code]
  | [] => []

/-- The rest of a string whose opening quote stands at `start`. The codes read so far are in
`done`, the last first. -/
def stringTail (start : Nat) : Nat → List Nat → List Char → Except Problem (String × Place)
  | _, _, [] => fail .unterminated start
  | pos, done, '"' :: rest => .ok (String.ofList (joinSurrogates done.reverse), ⟨pos + 1, rest⟩)
  | _, _, ['\\'] => fail .unterminated start
  | pos, done, '\\' :: 'u' :: a :: b :: c :: d :: next :: rest =>
    match hexFour? a b c d with
    | some code => stringTail start (pos + 6) (code :: done) (next :: rest)
    | none => fail .unicodeEscape (pos + 1)
  | pos, _, '\\' :: 'u' :: _ => fail .unicodeEscape (pos + 1)
  | pos, done, '\\' :: c :: rest =>
    match simpleEscape? c with
    | some c => stringTail start (pos + 2) (c.toNat :: done) rest
    | none => fail .escape pos
  | pos, done, c :: rest =>
    if c.toNat < 0x20 then fail .control pos else stringTail start (pos + 1) (c.toNat :: done) rest

def string (p : Place) : Except Problem (String × Place) :=
  stringTail p.position (p.position + 1) [] (p.rest.drop 1)

/-- The digits of a fraction, with the point before them; nothing if there are none. -/
def fraction (s : List Char) : List Char :=
  match s with
  | '.' :: rest =>
    let digits := rest.takeWhile Char.isDigit
    if digits.isEmpty then [] else '.' :: digits
  | _ => []

/-- An exponent with its mark and sign; nothing if it has no digits. -/
def exponent (s : List Char) : List Char :=
  match s with
  | mark :: rest =>
    if mark == 'e' || mark == 'E' then
      let sign := rest.takeWhile (fun c => c == '+' || c == '-') |>.take 1
      let digits := (rest.drop sign.length).takeWhile Char.isDigit
      if digits.isEmpty then [] else mark :: sign ++ digits
    else []
  | [] => []

def exponentValue (s : List Char) : Int :=
  let value : Int := Numeral.digitsValue s
  if s.contains '-' then -value else value

def number? (p : Place) : Option (Except Problem (Json × Place)) :=
  let negative := p.rest.head? == some '-'
  let s := if negative then p.rest.drop 1 else p.rest
  let whole := match s with
    | '0' :: _ => ['0']
    | _ => s.takeWhile Char.isDigit
  if whole.isEmpty then none
  else
    let frac := fraction (s.drop whole.length)
    let exp := exponent (s.drop (whole.length + frac.length))
    let next := p.drop ((if negative then 1 else 0) + whole.length + frac.length + exp.length)
    if frac.isEmpty && exp.isEmpty then
      some <| match Numeral.readToken whole with
        | .ok n => .ok (.int (if negative then -n else n), next)
        | .error fault => fail (.numeral fault) p.position
    else
      let scale : Int := exponentValue exp - (frac.length - 1 : Nat)
      some (.ok (.real (.ofDecimal negative (Numeral.digitsValue (whole ++ frac)) scale), next))

def literal? (p : Place) : Option (Json × Place) :=
  let words : List (String × Json) := [
    ("null", .null), ("true", .bool true), ("false", .bool false), ("NaN", .real .nan),
    ("Infinity", .real (.infinity false)), ("-Infinity", .real (.infinity true))]
  (words.find? fun (word, _) => word.toList.isPrefixOf p.rest).map fun (word, value) =>
    (value, p.drop word.length)

mutual
/-- A value. The first argument bounds the nesting of what follows; the length of the text is
always enough. -/
def value : Nat → Place → Except Problem (Json × Place)
  | 0, p => fail .value p.position
  | n + 1, p =>
    match p.rest.head? with
    | some '"' => (string p).map fun (s, p) => (.str s, p)
    | some '\x7b' =>
      let p := (p.drop 1).skip
      if p.rest.head? == some '\x7d' then .ok (.obj [], p.drop 1) else members n p []
    | some '[' =>
      let p := (p.drop 1).skip
      if p.rest.head? == some ']' then .ok (.arr [], p.drop 1) else elements n p []
    | _ =>
      match literal? p with
      | some found => .ok found
      | none => (number? p).getD (fail .value p.position)
/-- The members of an object from a key on; those before it are in `done`, the last first. -/
def members : Nat → Place → List (String × Json) → Except Problem (Json × Place)
  | 0, p, _ => fail .value p.position
  | n + 1, p, done => do
    if p.rest.head? != some '"' then fail .propertyName p.position else
    let (key, p) ← string p
    let p := p.skip
    if p.rest.head? != some ':' then fail .colon p.position else
    let (item, p) ← value n (p.drop 1).skip
    let done := (key, item) :: done
    let p := p.skip
    if p.rest.head? == some '\x7d' then
      .ok (.obj (done.foldr (fun (key, item) fields => Table.put fields key item) []), p.drop 1)
    else if p.rest.head? != some ',' then fail .comma p.position
    else members n (p.drop 1).skip done
/-- The elements of an array from one on; those before it are in `done`, the last first. -/
def elements : Nat → Place → List Json → Except Problem (Json × Place)
  | 0, p, _ => fail .value p.position
  | n + 1, p, done => do
    let (item, p) ← value n p
    let done := item :: done
    let p := p.skip
    if p.rest.head? == some ']' then .ok (.arr done.reverse, p.drop 1)
    else if p.rest.head? != some ',' then fail .comma p.position
    else elements n (p.drop 1).skip done
end

end Reader

def read (text : List Char) : Except Reader.Problem Json :=
  if text.head? == some '\uFEFF' then Reader.fail .byteOrderMark 0
  else do
    let start : Reader.Place := ⟨0, text⟩
    let (item, p) ← Reader.value (2 * text.length + 2) start.skip
    let p := p.skip
    if p.rest.isEmpty then .ok item else Reader.fail .surplus p.position

end IntegerBasic.Json
