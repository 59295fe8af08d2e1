import IntegerBasic.Tree.Node
import IntegerBasic.Grammar.Lexeme

/-!
# Rules

A rule reads from a place in a line. What it leaves behind is a reading: the nodes it has
recognized, and either a value with the place behind them or the mismatch that stopped it. The
nodes of a rule that stopped are kept, so that a broken statement can still show its sound part.
-/

namespace IntegerBasic.Grammar

/-- A place in a line and the text from there to the end. -/
structure Input where
  row : Int
  col : Nat
  rest : List Char
  deriving DecidableEq, Repr

namespace Input

def point (i : Input) : Point := ⟨i.row, i.col⟩

def after (i : Input) (text rest : List Char) : Input := ⟨i.row, i.col + text.length, rest⟩

/-- The place behind the spaces and tabs. -/
def skip (i : Input) : Input :=
  i.after (i.rest.takeWhile Text.isGap) (i.rest.dropWhile Text.isGap)

def leaf (i : Input) (kind : LeafKind) (text : List Char) : Node :=
  .leaf ⟨kind, text, ⟨i.point, ⟨i.row, i.col + text.length⟩⟩⟩

/-- The text between two columns, neither of them before the place. -/
def slice (i : Input) (start stop : Nat) : List Char :=
  (i.rest.drop (start - i.col)).take (stop - start)

/-- An inner node that reaches from its first child to its last. -/
def enclose (i : Input) (kind : InnerKind) (children : List Node) : Node :=
  let start := (children.head?.map (·.span.start)).getD i.point
  let stop := (children.getLast?.map (·.span.stop)).getD i.point
  .inner ⟨kind, i.slice start.col stop.col, ⟨start, stop⟩⟩ children

end Input

structure Reading (α : Type) where
  nodes : List Node
  outcome : Except Mismatch (α × Input)

def Reading.value? {α : Type} (r : Reading α) : Option α :=
  match r.outcome with
  | .ok (a, _) => some a
  | .error _ => none

def Rule (α : Type) : Type := Input → Reading α

namespace Rule

variable {α β σ : Type}

def pure (a : α) : Rule α := fun i => ⟨[], .ok (a, i)⟩

def bind (r : Rule α) (f : α → Rule β) : Rule β := fun i =>
  match r i with
  | ⟨nodes, .error e⟩ => ⟨nodes, .error e⟩
  | ⟨nodes, .ok (a, j)⟩ =>
    let reading := f a j
    ⟨nodes ++ reading.nodes, reading.outcome⟩

instance : Monad Rule where
  pure := Rule.pure
  bind := Rule.bind

def stop (cause : Mismatch) : Rule α := fun _ => ⟨[], .error cause⟩

/-- The next character behind spaces and tabs; none at the end of the line. -/
def peek : Rule (Option Char) := fun i => ⟨[], .ok (i.skip.rest.head?, i.skip)⟩

/-- A statement ends here: a colon comes next, or nothing. -/
def atEnd : Rule Bool := do
  let next ← peek
  return next == none || next == some ':'

def ahead (test : List Char → Bool) : Rule Bool := fun i => ⟨[], .ok (test i.skip.rest, i.skip)⟩

/-- Reads a token if it comes next, and says whether it did. -/
def token? (reader : Lexeme.Reader) (kind : LeafKind) : Rule Bool := fun i =>
  match reader i.skip.rest with
  | none => ⟨[], .ok (false, i.skip)⟩
  | some (text, rest) => ⟨[i.skip.leaf kind text], .ok (true, i.skip.after text rest)⟩

/-- Reads a word of the language if it comes next, and says whether it did. -/
def word? (t : Token) : Rule Bool := token? (Lexeme.word t.spelling.toList) (.token t)

/-- Reads a word of the language, which has to come next. -/
def expect (t : Token) : Rule Unit := do
  unless ← word? t do stop (.expected t)

/-- Reads a word whose token is settled only by what follows it. The word is `t` unless `settle`
says otherwise of the value of `body`; a body that is stopped settles nothing. -/
def wordThen (t : Token) (settle : α → Token) (body : Rule α) : Rule α := fun i =>
  match Lexeme.word t.spelling.toList i.skip.rest with
  | none => ⟨[], .error (.expected t)⟩
  | some (text, rest) =>
    let reading := body (i.skip.after text rest)
    let settled := (reading.value?.map settle).getD t
    ⟨i.skip.leaf (.token settled) text :: reading.nodes, reading.outcome⟩

/-- Puts the nodes of a rule under one new node. If the rule is stopped they are dropped. -/
def enclose (kind : α → InnerKind) (r : Rule α) : Rule α := fun i =>
  match r i with
  | ⟨_, .error e⟩ => ⟨[], .error e⟩
  | ⟨nodes, .ok (a, j)⟩ => ⟨[i.enclose (kind a) nodes], .ok (a, j)⟩

/-- Up to `n` rounds of a rule that says after each round whether to go on, and in what
state. -/
def rounds (step : σ → Rule (Option σ)) : Nat → σ → Rule σ
  | 0, s => pure s
  | n + 1, s => do
    match ← step s with
    | none => return s
    | some s => rounds step n s

/-- Rounds of a rule until it does not go on. Each round that goes on has read at least one
character, so the length of the text bounds their number. -/
def loop (step : σ → Rule (Option σ)) (s : σ) : Rule σ := fun i =>
  rounds step (i.rest.length + 1) s i

end Rule

end IntegerBasic.Grammar
