import IntegerBasic.Grammar.Statement
import IntegerBasic.Text.Lines

/-!
# Lines and programs

A line is a number and statements with colons between them. A program is a text of lines, of
which the blank ones are left out.

There is no limit here to how deep the rules call one another. The limit that programs run into,
and what becomes of a line that nests deeper, is in `Grammar/Stack`.
-/

namespace IntegerBasic.Grammar

/-- Up to `n` statements and colons from a place on. -/
def statementsUpTo : Nat → Input → List Node
  | 0, _ => []
  | n + 1, i =>
    match i.skip.rest with
    | [] => []
    | ':' :: rest =>
      i.skip.leaf (.token .colon) [':'] :: statementsUpTo n (i.skip.after [':'] rest)
    | _ =>
      let (node, j) := statement i.skip
      node :: statementsUpTo n j

/-- The statements of a line and the colons between them. -/
def statements (i : Input) : List Node := statementsUpTo (i.rest.length + 1) i

/-- The error leaf of a line without a number. It covers the line without the blanks at both
ends; on a blank line its ends are crossed and it holds nothing. -/
def unnumbered (row : Int) (text : List Char) : Node :=
  let start := text.length - (Text.trimLeft text).length
  let stop := (Text.trimRight text).length
  .leaf ⟨.error .lineNumber, (text.take stop).drop start, ⟨⟨row, start⟩, ⟨row, stop⟩⟩⟩

/-- The tree of one line, however deep it nests. `lineOn` is the same with a limit. -/
def line (row : Int) (text : List Char) : Node :=
  let i : Input := ⟨row, 0, text⟩
  .inner ⟨.line, text, ⟨i.point, ⟨row, text.length⟩⟩⟩ <|
    match Lexeme.lineNumber text with
    | none => [unnumbered row text]
    | some (number, rest) => i.leaf .lineNumber number :: statements (i.after number rest)

/-- The lines of a text that are not blank, each with its row. -/
def numberedRows (text : List Char) : List (Nat × List Char) :=
  ((Text.lines text).zipIdx.map fun (line, row) => (row, line)).filter
    fun (_, line) => !Text.isBlankText line

def programSpan (text : List Char) : Span :=
  let lines := Text.lines text
  ⟨⟨0, 0⟩, ⟨(lines.length - 1 : Nat), (lines.getLastD []).length⟩⟩

/-- The tree of a program. -/
def program (text : List Char) : Node :=
  .inner ⟨.program, text, programSpan text⟩ <|
    (numberedRows text).map fun (row, text) => line row text

end IntegerBasic.Grammar
