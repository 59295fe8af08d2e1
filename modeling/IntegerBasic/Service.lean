import IntegerBasic.Analysis
import IntegerBasic.Json.Printer
import IntegerBasic.Memory.Listing
import IntegerBasic.Record.Stack
import IntegerBasic.Renumber

/-!
# The service

The requests that the service answers, as a function from a request to a response. The body of
a request is a JSON value, or a file with parameters in the address. A request with a field
missing, or with one of the wrong type, is refused.
-/

namespace IntegerBasic.Service

inductive Body where
  | json (value : Json)
  | upload (content : List UInt8) (query : List (String × Json))

structure Response where
  status : Nat
  body : Json

inductive Crash where
  | numeral (fault : Numeral.Fault)
  | renumber (fault : Renumber.Fault)
  | overflow (overflow : Grammar.Overflow)
  deriving DecidableEq, Repr

def detail (status : Nat) (message : String) : Response := ⟨status, .obj [("detail", .str message)]⟩

def invalid : Response := detail 422 "validation"

/-- A field, where null counts as missing. -/
def field? (fields : List (String × Json)) (key : String) : Option Json :=
  match Table.get? fields key with
  | some .null => none
  | found => found

/-- A whole number as a field may be written: a number without a fraction, yes or no, or text
that reads as such a number, perhaps with zeros behind a point. -/
def wholeNumber? : Json → Option Int
  | .int n => some n
  | .bool b => some (if b then 1 else 0)
  | .real (.finite negative m e) =>
    let whole := Binary64.whole negative m e
    if e < 0 && m % (1 <<< e.natAbs) != 0 then none
    else if whole.natAbs < 1 <<< 63 then some whole
    else none
  | .str s =>
    let text := Text.dropTail Numeral.isEdge (s.toList.dropWhile Numeral.isEdge)
    let digits := text.takeWhile (· != '.')
    let zeros := (text.drop digits.length).drop 1
    let isAscii := text.all fun c => c.isDigit || c == '_' || c == '+' || c == '-' || c == '.'
    if isAscii && zeros.all (· == '0') then (Numeral.read digits).toOption else none
  | _ => none

def yesNo? : Json → Option Bool
  | .bool b => some b
  | .int 0 => some false
  | .int 1 => some true
  | .real (.finite negative m e) =>
    if m = 0 then some false
    else if !negative && m == 1 <<< 52 && e == -52 then some true
    else none
  | .str s =>
    let word := s.map Char.toLower
    if ["1", "on", "t", "true", "y", "yes"].contains word then some true
    else if ["0", "off", "f", "false", "n", "no"].contains word then some false
    else none
  | _ => none

def required {α : Type} (read : Json → Option α) (fields : List (String × Json))
    (key : String) : Option α := do
  read (← field? fields key)

def optionalField {α : Type} (read : Json → Option α) (fields : List (String × Json))
    (key : String) : Option (Option α) :=
  match field? fields key with
  | none => some none
  | some value => (read value).map some

def text? : Json → Option (List Char)
  | .str s => some s.toList
  | _ => none

def positionJson (p : Document.Position) : Json :=
  .obj [("line", .int p.line), ("character", .int p.character)]

def editJson (e : Document.Edit) : Json :=
  .obj [
    ("range", .obj [("start", positionJson e.range.start), ("end", positionJson e.range.stop)]),
    ("newText", .str (String.ofList e.newText))]

def tokenize (calls : Nat) (text : List Char) : Except Crash Response :=
  match Record.storeOn calls text with
  | .ok code => .ok ⟨200, .obj [
      ("hex", .str (String.ofList (Text.hexUpper code))), ("length", .int code.length)]⟩
  | .error (.numeral fault) => .error (.numeral fault)
  | .error .depth => .error (.overflow .depth)
  | .error fault => .ok (detail 422 fault.message)

def analyze (calls : Nat) (settings : Settings) (text : List Char) : Except Crash Response := do
  let _ ← (Grammar.programOn calls text).mapError .overflow
  match Analysis.ofProgram settings text with
  | .ok analysis => .ok ⟨200, analysis.toJson⟩
  | .error fault => .error (.numeral fault)

structure RenumberRequest where
  text : List Char
  start : Int
  step : Int
  updateReferences : Bool
  selection : Option Renumber.Selection
  deriving DecidableEq, Repr

def RenumberRequest.ofFields? (fields : List (String × Json)) : Option RenumberRequest := do
  let text ← required text? fields "text"
  let start ← required wholeNumber? fields "start"
  let step ← required wholeNumber? fields "step"
  let updateReferences ← match Table.get? fields "update_references" with
    | none => some false
    | some value => yesNo? value
  let first ← optionalField wholeNumber? fields "first_line"
  let last ← optionalField wholeNumber? fields "last_line"
  return ⟨text, start, step, updateReferences, first.map fun first => ⟨first, last.getD first⟩⟩

def renumber (calls : Nat) (request : RenumberRequest) : Except Crash Response := do
  if (Renumber.parameters (.int request.start) (.int request.step)).toBool then
    let _ ← (Grammar.programOn calls request.text).mapError .overflow
  match Renumber.edits request.text (.int request.start) (.int request.step)
      request.updateReferences request.selection with
  | .error .parameters => .ok (detail 400 (Renumber.Fault.message .parameters))
  | .error (.bounds first last lower upper) =>
    .ok (detail 422 (Renumber.Fault.message (.bounds first last lower upper)))
  | .error fault => .error (.renumber fault)
  | .ok edits =>
    match Document.applyEdits? request.text edits with
    | none => .error (.renumber .row)
    | some text => .ok ⟨200, .obj [
        ("edits", .arr (edits.map editJson)), ("text", .str (String.ofList text))]⟩

def detokenize (settings : Settings) (content : List UInt8) (start stop : Option Int) : Response :=
  if content.isEmpty then detail 400 "File is empty"
  else
    let listing := Memory.list settings content start stop
    if listing.text.isEmpty then detail 404 "No program found in image"
    else ⟨200, .obj [("text", .str (String.ofList listing.text))]⟩

/-- A parameter in the address reaches the service as text. A large number with a point in it is
written with an exponent there, and then it is not a whole number. -/
def parameter? (query : List (String × Json)) (key : String) : Option (Option Int) :=
  match Table.get? query key with
  | none => some none
  | some (.str s) => (wholeNumber? (.str s)).map some
  | some (.real x) =>
    ((wholeNumber? (.real x)).filter (·.natAbs < 10000000000000000)).map some
  | some value => (wholeNumber? (.str value.print)).map some

/-- The pages on which the service describes itself. They are there to be read, and take no
requests. -/
def pages : List String := ["/docs", "/redoc", "/openapi.json", "/docs/oauth2-redirect"]

/-- A path without the slash that may stand at its end. -/
def route (path : String) : String :=
  let chars := path.toList
  if 1 < chars.length && chars.getLast? == some '/' then String.ofList chars.dropLast else path

def handle (calls : Nat) (settings : Settings) (path : String) (body : Body) :
    Except Crash Response :=
  let textField : Option (List Char) :=
    match body with
    | .json (.obj fields) => required text? fields "text"
    | _ => none
  match route path with
  | "/tokenize" => (textField.map (tokenize calls)).getD (.ok invalid)
  | "/analyze" => (textField.map (analyze calls settings)).getD (.ok invalid)
  | "/renumber" =>
    match body with
    | .json (.obj fields) =>
      ((RenumberRequest.ofFields? fields).map (renumber calls)).getD (.ok invalid)
    | _ => .ok invalid
  | "/detokenize" =>
    match body with
    | .upload content query =>
      match parameter? query "program_start", parameter? query "program_end" with
      | some start, some stop => .ok (detokenize settings content start stop)
      | _, _ => .ok invalid
    | _ => .ok invalid
  | other => .ok (if pages.contains other then detail 405 "Method Not Allowed"
      else detail 404 "Not Found")

end IntegerBasic.Service
