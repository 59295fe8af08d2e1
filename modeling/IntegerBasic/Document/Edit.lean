import IntegerBasic.Index
import IntegerBasic.Text.Lines
import IntegerBasic.Tree.Node

/-!
# Edits

Positions that an editor sends, and changes to a text by them. Rows are the stretches between
line feeds. A change is given by positions in the text as it was before all changes, so changes
are carried out from the end of the text to its front.
-/

namespace IntegerBasic.Document

/-- A position that comes from outside: its parts can be any whole numbers. -/
structure Position where
  line : Int
  character : Int
  deriving DecidableEq, Repr

def Position.le (p q : Position) : Bool :=
  p.line < q.line || (p.line == q.line && p.character ≤ q.character)

structure Range where
  start : Position
  stop : Position
  deriving DecidableEq, Repr

/-- A position lies within a range, both ends included. -/
def Range.contains (range : Range) (p : Position) : Bool :=
  range.start.le p && p.le range.stop

def Position.ofPoint (p : Point) : Position := ⟨p.row, p.col⟩

def Range.ofSpan (span : Span) : Range := ⟨.ofPoint span.start, .ofPoint span.stop⟩

structure Edit where
  range : Range
  newText : List Char
  deriving DecidableEq, Repr

/-- Where each row begins, where the first begins at `start`, and last where one more row would
begin. -/
def rowStarts (start : Nat) : List (List Char) → List Nat
  | [] => [start]
  | row :: more => start :: rowStarts (start + row.length + 1) more

def offset? (starts : List Nat) (p : Position) : Option Int := do
  let start ← starts[← Index.place? starts.length p.line]?
  return start + p.character

/-- The text with a stretch replaced. The ends are moved into the text where they are not. -/
def replace (text : List Char) (start stop : Int) (new : List Char) : List Char :=
  text.take (Index.floor text start) ++ (new ++ text.drop (Index.floor text stop))

/-- The edits in the order in which they are carried out: from the end of the text to its
front, and with equal starts in the order given. -/
def ordered (edits : List Edit) : List Edit :=
  edits.mergeSort fun e f => f.range.start.le e.range.start

/-- Carries out edits. It fails if a position has a row that the text does not have. -/
def applyEdits? (text : List Char) (edits : List Edit) : Option (List Char) :=
  let starts := rowStarts 0 (Text.rows text)
  (ordered edits).foldlM (fun text edit => do
    let start ← offset? starts edit.range.start
    let stop ← offset? starts edit.range.stop
    return replace text start stop edit.newText) text

end IntegerBasic.Document
