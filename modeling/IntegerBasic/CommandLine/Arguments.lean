import IntegerBasic.CommandLine.Options
import IntegerBasic.Memory.Image
import IntegerBasic.Numeral
import IntegerBasic.Renumber

/-!
# Commands

The commands that a command line can ask for, each with its arguments. A command line that asks
for none of them, or for one in a wrong way, is answered with a word on usage.
-/

namespace IntegerBasic.CommandLine

inductive Name where
  | help | settings | verbose | output | hex | image | himem | lomem | raw | start | stop | lines
  | step | refs | inPlace | host | portNumber
  deriving DecidableEq, Repr

def flag (name : Name) (spellings : List String) : Switch Name :=
  ⟨name, spellings.map (·.toList), false⟩

def setting (name : Name) (spellings : List String) : Switch Name :=
  ⟨name, spellings.map (·.toList), true⟩

def helpOption : Switch Name := flag .help ["-h", "--help"]

def outputOption : Switch Name := setting .output ["--output", "-o"]

def commonOptions : List (Switch Name) := [
  helpOption, setting .settings ["--settings", "-s"], flag .verbose ["--verbose", "-v"]]

inductive Verb where
  | tokenize | detokenize | check | renumber | serve
  deriving DecidableEq, Repr

def Verb.ofText? (text : List Char) : Option Verb :=
  let verbs : List (String × Verb) := [
    ("tokenize", .tokenize), ("detokenize", .detokenize), ("check", .check),
    ("renumber", .renumber), ("serve", .serve)]
  (verbs.find? (·.1.toList == text)).map (·.2)

def Verb.options : Verb → List (Switch Name)
  | .tokenize => [
    helpOption, outputOption, flag .hex ["--hex"], flag .image ["--image"],
    setting .himem ["--himem"], setting .lomem ["--lomem"]]
  | .detokenize => [
    helpOption, outputOption, flag .raw ["--raw"], setting .start ["--start"],
    setting .stop ["--end"]]
  | .check => [helpOption]
  | .renumber => [
    helpOption, setting .start ["--start"], setting .step ["--step"],
    setting .lines ["--lines"], flag .refs ["--refs"], outputOption,
    flag .inPlace ["--in-place", "-i"]]
  | .serve => [helpOption, setting .host ["--host"], setting .portNumber ["--port"]]

/-- Every command but the last reads one file. -/
def Verb.wantsInput : Verb → Bool
  | .serve => false
  | _ => true

/-- What an option has been given: a value, or nothing at all. -/
inductive Given (α : Type) where
  | nothing
  | value (a : α)
  deriving DecidableEq, Repr

def Given.toOption {α : Type} : Given α → Option α
  | .nothing => none
  | .value a => some a

/-- An option without anything shows as empty brackets. -/
def Given.shown {α : Type} (text : α → List Char) : Given α → List Char
  | .nothing => ['[', ']']
  | .value a => text a

inductive Command where
  | tokenize (input : List Char) (output : Option (Given (List Char))) (hex image : Bool)
      (himem lomem : Given Int)
  | detokenize (input : List Char) (output : Option (Given (List Char))) (raw : Bool)
      (start stop : Option (Given Int))
  | check (input : List Char)
  | renumber (input : List Char) (start step : Given (List Char))
      (lines : Option Renumber.Selection) (refs : Bool) (output : Option (Given (List Char)))
      (inPlace : Bool)
  | serve (host : Given (List Char)) (portNumber : Given Int)
  deriving DecidableEq, Repr

def Command.input? : Command → Option (List Char)
  | .tokenize input .. | .detokenize input .. | .check input | .renumber input .. => some input
  | .serve _ _ => none

def storePath (output : Option (Given (List Char))) : List Char :=
  match output with
  | none | some .nothing | some (.value []) => "out.bin".toList
  | some (.value path) => path

def Command.output? : Command → Option (List Char)
  | .tokenize _ output hex .. => if hex then none else some (storePath output)
  | .detokenize _ output .. => output.bind Given.toOption
  | .renumber input _ _ _ _ output inPlace =>
    if inPlace then some input else output.bind Given.toOption
  | .check _ | .serve _ _ => none

structure Invocation where
  settings : Option (List Char)
  verbose : Bool
  command : Command
  deriving DecidableEq, Repr

/-- The files that a command line reads: its settings and the input of its command. -/
def Invocation.paths (invocation : Invocation) : List (List Char) :=
  invocation.settings.toList ++ invocation.command.input?.toList

inductive Stop where
  /-- Help was asked for. -/
  | help
  /-- The command line is wrong. -/
  | usage
  /-- There is no command on it. -/
  | noCommand
  deriving DecidableEq, Repr

structure RowsFault where
  text : List Char
  deriving DecidableEq, Repr

def RowsFault.message (f : RowsFault) : String :=
  "invalid line range `" ++ String.ofList f.text ++ "'"

/-- Reads a range of rows, first and last with a colon between them and counted from one. The
last may be left out. The rows that are selected are counted from zero. -/
def readRows (text : List Char) : Except RowsFault Renumber.Selection :=
  let first := text.takeWhile (· != ':')
  let last := (text.dropWhile (· != ':')).tail
  match Numeral.read first, if last.isEmpty then Numeral.read first else Numeral.read last with
  | .ok first, .ok last =>
    if first < 1 ∨ last < first then .error ⟨text⟩ else .ok ⟨first - 1, last - 1⟩
  | _, _ => .error ⟨text⟩

structure Draft where
  settings : Option (List Char) := none
  verbose : Bool := false
  input : Option (List Char) := none
  output : Option (Given (List Char)) := none
  hex : Bool := false
  image : Bool := false
  himem : Given Int := .value Memory.defaultHimem
  lomem : Given Int := .value Memory.defaultLomem
  raw : Bool := false
  start : Option (Given (List Char)) := none
  stop : Option (Given (List Char)) := none
  lines : Option Renumber.Selection := none
  step : Option (Given (List Char)) := none
  refs : Bool := false
  inPlace : Bool := false
  host : Given (List Char) := .value "127.0.0.1".toList
  portNumber : Given Int := .value 8000
  hasExtra : Bool := false

def number (text : List Char) : Except Stop Int := (Numeral.read text).mapError fun _ => .usage

/-- A number is wanted where a command takes addresses. -/
def checkNumber (verb : Option Verb) (text : List Char) : Except Stop Unit :=
  if verb = some .detokenize then (number text).map fun _ => () else .ok ()

/-- The file that the output goes to. Output in place goes to no other file. -/
def Draft.takeOutput (draft : Draft) (output : Given (List Char)) : Except Stop Draft :=
  if draft.inPlace then .error .usage else .ok { draft with output := some output }

def Draft.take (verb : Option Verb) (draft : Draft) : Event Name → Except Stop Draft
  | .flag .help => .error .help
  | .flag .verbose => .ok { draft with verbose := true }
  | .flag .hex => .ok { draft with hex := true }
  | .flag .image => .ok { draft with image := true }
  | .flag .raw => .ok { draft with raw := true }
  | .flag .refs => .ok { draft with refs := true }
  | .flag .inPlace =>
    if draft.output.isSome then .error .usage else .ok { draft with inPlace := true }
  | .flag _ => .error .usage
  | .value .settings text => .ok { draft with settings := some text }
  | .value .output text => draft.takeOutput (.value text)
  | .value .himem text => do return { draft with himem := .value (← number text) }
  | .value .lomem text => do return { draft with lomem := .value (← number text) }
  | .value .start text => do
    checkNumber verb text
    return { draft with start := some (.value text) }
  | .value .stop text => do
    checkNumber verb text
    return { draft with stop := some (.value text) }
  | .value .lines text =>
    match readRows text with
    | .ok rows => .ok { draft with lines := some rows }
    | .error _ => .error .usage
  | .value .step text => .ok { draft with step := some (.value text) }
  | .value .host text => .ok { draft with host := .value text }
  | .value .portNumber text => do return { draft with portNumber := .value (← number text) }
  | .value _ _ => .error .usage
  | .blank .settings => .ok { draft with settings := none }
  | .blank .output => draft.takeOutput .nothing
  | .blank .himem => .ok { draft with himem := .nothing }
  | .blank .lomem => .ok { draft with lomem := .nothing }
  | .blank .start => .ok { draft with start := some .nothing }
  | .blank .stop => .ok { draft with stop := some .nothing }
  | .blank .lines => .ok { draft with lines := none }
  | .blank .step => .ok { draft with step := some .nothing }
  | .blank .host => .ok { draft with host := .nothing }
  | .blank .portNumber => .ok { draft with portNumber := .nothing }
  | .blank _ => .error .usage
  | .positional text => .ok { draft with input := some text }
  | .extra _ => .ok { draft with hasExtra := true }
  | .bad => .error .usage

def address (text : Option (Given (List Char))) : Except Stop (Option (Given Int)) :=
  match text with
  | none => .ok none
  | some .nothing => .ok (some .nothing)
  | some (.value text) => (number text).map fun n => some (.value n)

def Draft.command (draft : Draft) : Verb → Except Stop Command
  | .serve => .ok (.serve draft.host draft.portNumber)
  | verb => do
    let some input := draft.input | .error .usage
    match verb with
    | .tokenize =>
      return .tokenize input draft.output draft.hex draft.image draft.himem draft.lomem
    | .detokenize =>
      return .detokenize input draft.output draft.raw (← address draft.start)
        (← address draft.stop)
    | .check => return .check input
    | _ =>
      return .renumber input (draft.start.getD (.value "10".toList))
        (draft.step.getD (.value "10".toList)) draft.lines draft.refs draft.output
        draft.inPlace

def parse (words : List (List Char)) : Except Stop Invocation := do
  let some arguments := classifyAll? commonOptions words | .error .usage
  let (before, rest) := leading commonOptions arguments
  let common ← before.foldlM (Draft.take none) {}
  match rest with
  | [] => if common.hasExtra then .error .usage else .error .noCommand
  | word :: rest =>
    let some verb := Verb.ofText? word | .error .usage
    let some arguments := classifyAll? verb.options rest | .error .usage
    let draft ← (events verb.options verb.wantsInput arguments).foldlM (Draft.take (some verb)) {}
    let command ← draft.command verb
    if common.hasExtra || draft.hasExtra then .error .usage
    else .ok ⟨common.settings, common.verbose, command⟩

end IntegerBasic.CommandLine
