import IntegerBasic.Json

/-!
# Settings

What a user can choose: whether lower case is reported, which warnings are given, how long a
line may be before it is reported, and which bytes a listing always shows as escapes. Settings
are read from three sections of a JSON object, all of them optional.
-/

namespace IntegerBasic

structure Settings where
  caseSensitive : Bool := false
  warnUndeclaredArrays : Bool := true
  warnUndefinedVariables : Bool := true
  warnLength : Int := 150
  escapes : List Int := [138, 141]
  deriving DecidableEq, Repr

namespace Settings

inductive Fault where
  /-- A section, or the whole, is not an object. -/
  | notAnObject
  /-- The escapes are not a list of anything. -/
  | notAList
  /-- A value is no whole number. -/
  | number (fault : Json.Fault)
  deriving DecidableEq, Repr

/-- The value of a section, where an empty value of any type counts as a missing section. -/
def sectionOf (fields : List (String × Json)) (key : String) : Json :=
  match Table.get? fields key with
  | some value => if value.isTruthy then value else .obj []
  | none => .obj []

def get? (area : Json) (key : String) : Except Fault (Option Json) :=
  match area with
  | .obj fields => .ok (Table.get? fields key)
  | _ => .error .notAnObject

def toInteger (value : Json) : Except Fault Int := value.toInteger.mapError .number

/-- The members of a value that is listed: the items of an array, the keys of an object, the
characters of a text. -/
def members : Json → Except Fault (List Json)
  | .arr items => .ok items
  | .obj fields => .ok (fields.map fun (key, _) => .str key)
  | .str s => .ok (s.toList.map fun c => .str (String.ofList [c]))
  | _ => .error .notAList

/-- Reads settings. The sections are taken in the order case, warn, detokenizer, and the first
fault counts. -/
def ofJson (value : Json) : Except Fault Settings := do
  let .obj fields := value | .error .notAnObject
  let case := sectionOf fields "case"
  let warn := sectionOf fields "warn"
  let detokenizer := sectionOf fields "detokenizer"
  let default : Settings := {}
  let caseSensitive := (← get? case "caseSensitive").elim default.caseSensitive Json.isTruthy
  let arrays := (← get? warn "undeclaredArrays").elim default.warnUndeclaredArrays Json.isTruthy
  let undefined :=
    (← get? warn "undefinedVariables").elim default.warnUndefinedVariables Json.isTruthy
  let length ← match ← get? warn "length" with
    | some value => toInteger value
    | none => pure default.warnLength
  let escapes ← match ← get? detokenizer "escapes" with
    | some value => (← members value).mapM toInteger
    | none => pure default.escapes
  return ⟨caseSensitive, arrays, undefined, length, escapes⟩

def toJson (settings : Settings) : Json :=
  .obj [
    ("case", .obj [("caseSensitive", .bool settings.caseSensitive)]),
    ("warn", .obj [
      ("undeclaredArrays", .bool settings.warnUndeclaredArrays),
      ("undefinedVariables", .bool settings.warnUndefinedVariables),
      ("length", .int settings.warnLength)]),
    ("detokenizer", .obj [("escapes", .arr (settings.escapes.map .int))])]

end Settings

end IntegerBasic
