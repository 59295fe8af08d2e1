import IntegerBasic.Proofs.Analysis.SyntaxErrors
import IntegerBasic.Proofs.Grammar.Phrases

/-!
# What a program says of its variables

Where a program declares a variable, gives it a value and uses it can be read off its tree seat
by seat, by looking at the sibling right before. The table of variables is seen here as a map
from keys to places, and what the passes do to it as a run of events. The place lists of a key are
then the events of this key, in their order.
-/

namespace IntegerBasic

def Seat.name? (seat : Seat) : Option Leaf := seat.leaf?.filter (·.kind.isName)

def Seat.tokenBefore? (seat : Seat) : Option Token := seat.preceding.head?.bind Node.token?

def Node.variableName? : Node → Option Leaf
  | .leaf l => if l.kind.isName then some l else none
  | .inner ⟨.element _, _, _⟩ (.leaf l :: _) => if l.kind.isName then some l else none
  | _ => none

namespace Analysis

/-- The name of a variable in upper case without spaces. -/
def keyOf (text : List Char) : List Char := Text.upper (Text.withoutSpaces text)

/-- What `DIM` declares stands right behind the word or behind a comma of the list. -/
def isListed (seat : Seat) : Bool :=
  match seat.tokenBefore? with
  | some (.dim _) | some .dimComma => true
  | _ => false

/-- What `INPUT` asks for stands right behind the word, behind the comma of the prompt, or behind
a comma of the list. The index of a loop stands right behind `FOR`. -/
def isGiven (seat : Seat) : Bool :=
  match seat.tokenBefore? with
  | some (.input _) | some .promptComma | some .inputComma | some .forLoop => true
  | _ => false

/-- The node that is given a value here. In an assignment it is the first but for `LET`. -/
def givenNode? (seat : Seat) : Option Node :=
  match seat.node with
  | .inner ⟨.assignment _, _, _⟩ children => children.find? (·.token? != some .assign)
  | node => if isGiven seat then some node else none

theorem givenNode?_of_not_assignment {node : Node}
    (h : ∀ type, node.innerKind? ≠ some (.assignment type)) (left right : List Node) :
    givenNode? ⟨node, left, right⟩ =
      if isGiven ⟨node, left, right⟩ then some node else none := by
  cases node with
  | leaf l => rfl
  | inner label children =>
    obtain ⟨kind, text, span⟩ := label
    cases kind with
    | assignment type => exact absurd rfl (h type)
    | _ => rfl

/-- The place of a name that `DIM` declares, if it has the key. -/
def declaredAt (key : List Char) (seat : Seat) : Option Span :=
  if isListed seat then (seat.name?.filter (keyOf ·.text == key)).map (·.span) else none

/-- The place of a variable that is given a value, with its subscript, if it has the key. -/
def definedAt (key : List Char) (seat : Seat) : Option Span :=
  (givenNode? seat).bind fun node =>
    (node.variableName?.filter (keyOf ·.text == key)).map fun _ => node.span

/-- The place of a name that is not declared here, if it has the key. -/
def referredAt (key : List Char) (seat : Seat) : Option Span :=
  if isListed seat then none else (seat.name?.filter (keyOf ·.text == key)).map (·.span)

inductive Event where
  | declare (key : List Char) (span : Span)
  | define (key : List Char) (span : Span)
  | refer (key : List Char) (span : Span)
  deriving DecidableEq, Repr

structure Record where
  declarations : List Span := []
  definitions : List Span := []
  references : List Span := []
  deriving DecidableEq, Repr

namespace Event

def key : Event → List Char
  | .declare key _ | .define key _ | .refer key _ => key

@[simp] theorem key_declare (k : List Char) (span : Span) : (declare k span).key = k := rfl
@[simp] theorem key_define (k : List Char) (span : Span) : (define k span).key = k := rfl
@[simp] theorem key_refer (k : List Char) (span : Span) : (refer k span).key = k := rfl

def addTo (record : Record) : Event → Record
  | .declare _ span => { record with declarations := record.declarations ++ [span] }
  | .define _ span => { record with definitions := record.definitions ++ [span] }
  | .refer _ span => { record with references := record.references ++ [span] }

def declared? : Event → Option Span
  | .declare _ span => some span
  | _ => none

def defined? : Event → Option Span
  | .define _ span => some span
  | _ => none

def referred? : Event → Option Span
  | .refer _ span => some span
  | _ => none

/-- A run of events adds its places in their order. -/
theorem foldl_addTo (events : List Event) (record : Record) :
    events.foldl addTo record =
      ⟨record.declarations ++ events.filterMap declared?,
        record.definitions ++ events.filterMap defined?,
        record.references ++ events.filterMap referred?⟩ := by
  induction events generalizing record with
  | nil => simp
  | cons event events ih =>
    rw [List.foldl_cons, ih]
    cases event <;> simp [addTo, declared?, defined?, referred?, List.filterMap_cons]

end Event

/-- The places of each key that is in a table. -/
abbrev View := List Char → Option Record

/-- An event adds its place to the entry of its key, and a new entry if there is none. -/
def View.add (view : View) (event : Event) : View := fun key =>
  if event.key = key then some (event.addTo ((view key).getD {})) else view key

def VariableInfo.places (info : VariableInfo) : Record :=
  ⟨info.declarations, info.definitions, info.references⟩

def Symbols.view (symbols : Symbols) : View := fun key =>
  (symbols.findVariable? key).map VariableInfo.places

/-- Another occurrence of a variable leaves its places as they are. -/
theorem places_note (v : Variable) (info : Option VariableInfo) :
    (VariableInfo.note v info).places = (info.map VariableInfo.places).getD {} := by
  cases info <;> rfl

/-- A change of an entry that adds the place of an event. -/
theorem view_addVariable (symbols : Symbols) {v : Variable} {change : VariableInfo → VariableInfo}
    {event : Event} (hkey : event.key = v.key)
    (h : ∀ info, (change info).places = event.addTo info.places) :
    (symbols.addVariable v change).view = symbols.view.add event := by
  funext key
  simp only [Symbols.view, Symbols.findVariable?, Symbols.addVariable, Table.get?_alter, View.add,
    hkey]
  by_cases hv : v.key = key
  · simp [hv, h, places_note]
  · simp [hv]

theorem view_declare (symbols : Symbols) (v : Variable) (span : Span) :
    (symbols.declare v span).view = symbols.view.add (.declare v.key span) :=
  view_addVariable symbols rfl fun _ => rfl

theorem view_define (symbols : Symbols) (v : Variable) (span : Span) :
    (symbols.define v span).view = symbols.view.add (.define v.key span) :=
  view_addVariable symbols rfl fun _ => rfl

theorem view_refer (symbols : Symbols) (v : Variable) (span : Span) :
    (symbols.refer v span).view = symbols.view.add (.refer v.key span) :=
  view_addVariable symbols rfl fun _ => rfl

/-- What a run of events says of one key. -/
theorem foldl_add (events : List Event) (view : View) (key : List Char) :
    events.foldl View.add view key =
      if events.any (·.key == key) then
        some ((events.filter (·.key == key)).foldl Event.addTo ((view key).getD {}))
      else view key := by
  induction events generalizing view with
  | nil => rfl
  | cons event events ih =>
    rw [List.foldl_cons, ih]
    by_cases h : event.key = key
    · cases hany : events.any (·.key == key) with
      | true => simp [View.add, h, hany]
      | false =>
        have hnone : events.filter (·.key == key) = [] := by
          simpa [List.filter_eq_nil_iff, List.any_eq_false] using hany
        simp [View.add, h, hany, hnone]
    · simp [View.add, h]

def declaration? (seat : Seat) : Option Event :=
  if isListed seat then seat.name?.map fun l => .declare (keyOf l.text) l.span else none

def definition? (seat : Seat) : Option Event :=
  (givenNode? seat).bind fun node =>
    node.variableName?.map fun l => .define (keyOf l.text) node.span

def firstEvent? (seat : Seat) : Option Event := (declaration? seat).or (definition? seat)

def secondEvent? (seat : Seat) : Option Event :=
  if isListed seat then none else seat.name?.map fun l => .refer (keyOf l.text) l.span

theorem isGiven_of_isListed {seat : Seat} (h : isListed seat = true) : isGiven seat = false := by
  unfold isListed at h
  unfold isGiven
  split at h <;> simp_all

/-- A name in a list of `DIM` is given no value there. -/
theorem definition?_of_declaration? {seat : Seat} {event : Event}
    (h : declaration? seat = some event) : definition? seat = none := by
  cases hlisted : isListed seat with
  | false => simp [declaration?, hlisted] at h
  | true =>
    rw [declaration?, if_pos hlisted] at h
    obtain ⟨l, hl, -⟩ := Option.map_eq_some_iff.1 h
    obtain ⟨node, left, right⟩ := seat
    cases node with
    | inner => cases hl
    | leaf => simp [definition?, givenNode?, isGiven_of_isListed hlisted]

/-- What is found of a key among the first events. -/
theorem bind_firstEvent? (key : List Char) (seat : Seat) :
    ((firstEvent? seat).filter (·.key == key)).bind Event.declared? = declaredAt key seat ∧
      ((firstEvent? seat).filter (·.key == key)).bind Event.defined? = definedAt key seat ∧
      ((firstEvent? seat).filter (·.key == key)).bind Event.referred? = none := by
  cases hdeclaration : declaration? seat with
  | some event =>
    have hnone := definition?_of_declaration? hdeclaration
    have hdefined : definedAt key seat = none := by
      cases hnode : givenNode? seat with
      | none => simp [definedAt, hnode]
      | some node => simp_all [definedAt, definition?]
    unfold declaration? at hdeclaration
    cases hlisted : isListed seat with
    | false => simp [hlisted] at hdeclaration
    | true =>
      obtain ⟨l, hl, rfl⟩ := Option.map_eq_some_iff.1 (by simpa [hlisted] using hdeclaration)
      by_cases hkey : keyOf l.text = key <;>
        simp [firstEvent?, declaration?, declaredAt, hdefined, hlisted, hl, hkey, Option.filter_some,
          Event.declared?, Event.defined?, Event.referred?]
  | none =>
    have hdeclared : declaredAt key seat = none := by
      cases hlisted : isListed seat with
      | false => simp [declaredAt, hlisted]
      | true => simp_all [declaredAt, declaration?]
    cases hnode : givenNode? seat with
    | none => simp [firstEvent?, hdeclaration, definition?, definedAt, hnode, hdeclared]
    | some node =>
      cases hname : node.variableName? with
      | none => simp [firstEvent?, hdeclaration, definition?, definedAt, hnode, hname, hdeclared]
      | some l =>
        by_cases hkey : keyOf l.text = key <;>
          simp [firstEvent?, hdeclaration, definition?, definedAt, hnode, hname, hdeclared, hkey,
            Option.filter_some, Event.declared?, Event.defined?, Event.referred?]

/-- What is found of a key among the second events. -/
theorem bind_secondEvent? (key : List Char) (seat : Seat) :
    ((secondEvent? seat).filter (·.key == key)).bind Event.declared? = none ∧
      ((secondEvent? seat).filter (·.key == key)).bind Event.defined? = none ∧
      ((secondEvent? seat).filter (·.key == key)).bind Event.referred? = referredAt key seat := by
  cases hlisted : isListed seat with
  | true => simp [secondEvent?, referredAt, hlisted]
  | false =>
    cases hname : seat.name? with
    | none => simp [secondEvent?, referredAt, hlisted, hname]
    | some l =>
      by_cases hkey : keyOf l.text = key <;>
        simp [secondEvent?, referredAt, hlisted, hname, hkey, Option.filter_some, Event.declared?,
          Event.defined?, Event.referred?]

end Analysis

end IntegerBasic
