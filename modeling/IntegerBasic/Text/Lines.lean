/-!
# Rows and lines of a text

A text is cut into rows at line feeds, and nowhere else. A line is a row without the carriage
return that may stand right before its line feed; a carriage return anywhere else belongs to
the line. Rows and lines correspond one to one.
-/

namespace IntegerBasic.Text

def consFirst (c : Char) : List (List Char) → List (List Char)
  | [] => [[c]]
  | row :: more => (c :: row) :: more

/-- The rows of a text: the stretches between line feeds. There is always at least one. -/
def rows : List Char → List (List Char)
  | [] => [[]]
  | c :: rest => if c = '\n' then [] :: rows rest else consFirst c (rows rest)

def dropReturn (row : List Char) : List Char :=
  if row.getLast? = some '\r' then row.dropLast else row

/-- Takes the carriage return off every row that a line feed ends, that is, off every row
but the last. -/
def dropReturns : List (List Char) → List (List Char)
  | [] => []
  | [row] => [row]
  | row :: more => dropReturn row :: dropReturns more

/-- The lines of a text. -/
def lines (s : List Char) : List (List Char) := dropReturns (rows s)

/-- Every ending of a line written as one line feed: a carriage return with the line feed
after it, and a carriage return alone. -/
def unifyNewlines : List Char → List Char
  | [] => []
  | '\r' :: '\n' :: rest => '\n' :: unifyNewlines rest
  | '\r' :: rest => '\n' :: unifyNewlines rest
  | c :: rest => c :: unifyNewlines rest

theorem consFirst_ne_nil (c : Char) (ls : List (List Char)) : consFirst c ls ≠ [] := by
  cases ls <;> simp [consFirst]

theorem rows_ne_nil (s : List Char) : rows s ≠ [] := by
  cases s with
  | nil => simp [rows]
  | cons c rest =>
    by_cases h : c = '\n'
    · simp [rows, h]
    · simpa [rows, h] using consFirst_ne_nil c (rows rest)

@[simp] theorem length_dropReturns (ls : List (List Char)) :
    (dropReturns ls).length = ls.length := by
  induction ls with
  | nil => rfl
  | cons row more ih =>
    cases more with
    | nil => rfl
    | cons next more => simp only [dropReturns, List.length_cons] at ih ⊢; rw [ih]

@[simp] theorem length_lines (s : List Char) : (lines s).length = (rows s).length := by
  simp [lines]

end IntegerBasic.Text
