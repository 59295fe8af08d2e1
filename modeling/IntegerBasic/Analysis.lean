import IntegerBasic.Analysis.Checks
import IntegerBasic.Grammar.Program

/-!
# Analysis of a program

An analysis goes over the tree of a program twice. It gives diagnostics in the order in which
they were found, and the symbols of the program.
-/

namespace IntegerBasic

structure Analysis where
  diagnostics : List Analysis.Diagnostic
  symbols : Analysis.Symbols
  deriving DecidableEq, Repr

namespace Analysis

/-- Analyzes a program. It fails only on a number with too many digits. -/
def ofProgram (settings : Settings) (text : List Char) : Except Numeral.Fault Analysis := do
  let tree := Grammar.program text
  let state ← declarePass tree {}
  let state ← checkPass settings tree state
  return ⟨state.diagnostics, state.symbols⟩

def pointJson (p : Point) : Json :=
  .obj [("line", .int p.row), ("character", .int p.col)]

def spanJson (span : Span) : Json :=
  .obj [("start", pointJson span.start), ("end", pointJson span.stop)]

def textJson (s : List Char) : Json := .str (String.ofList s)

def spansJson (spans : List Span) : Json := .arr (spans.map spanJson)

def Diagnostic.toJson (d : Diagnostic) : Json :=
  .obj [
    ("range", spanJson d.span),
    ("severity", .str d.finding.severity.shown),
    ("message", .str d.finding.message)]

def LineInfo.toJson (info : LineInfo) : Json :=
  .obj [
    ("primary", spanJson info.primary),
    ("rem", textJson info.remark),
    ("gosubs", spansJson info.gosubs),
    ("gotos", spansJson info.gotos)]

def textLe (s t : List Char) : Bool := !decide (t < s)

def VariableInfo.toJson (info : VariableInfo) : Json :=
  .obj [
    ("isArray", .bool info.isArray),
    ("isString", .bool info.isString),
    ("dec", spansJson info.declarations),
    ("def", spansJson info.definitions),
    ("ref", spansJson info.references),
    ("case", .arr ((info.spellings.mergeSort textLe).map textJson))]

def Symbols.toJson (symbols : Symbols) : Json :=
  .obj [
    ("lines", .obj (symbols.lines.map fun (number, info) => (toString number, info.toJson))),
    ("vars", .obj (symbols.vars.map fun (key, info) => (String.ofList key, info.toJson)))]

def toJson (analysis : Analysis) : Json :=
  .obj [
    ("diagnostics", .arr (analysis.diagnostics.map (·.toJson))),
    ("symbols", analysis.symbols.toJson)]

end Analysis

end IntegerBasic
