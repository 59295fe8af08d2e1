import IntegerBasic.Analysis
import IntegerBasic.CommandLine.Arguments
import IntegerBasic.CommandLine.Session
import IntegerBasic.Json.Reader
import IntegerBasic.Memory.Listing
import IntegerBasic.Memory.Loading
import IntegerBasic.Record.Stack

/-!
# Running a command

What a command line does, in a session that begins with the files there are and with the standard
input. The answer is what is printed, which files are changed, and the exit status.
-/

namespace IntegerBasic.CommandLine

open CommandLine.Action
  (halt ofExcept say note readBytes readText hasStrays room fit write writeText)

structure Outcome where
  exit : Nat
  stdout : List Char := []
  stderr : List Char := []
  writes : List (String × List UInt8) := []
  deriving DecidableEq, Repr

def logLine (level area message : String) : List Char :=
  (level ++ " intbasic." ++ area ++ ": " ++ message ++ "\n").toList

def errorLine (message : String) : List Char := ("Error: " ++ message ++ "\n").toList

/-- The end of a command that gives a text: to a file, or to the standard output. -/
def deliver (path : Option (Given (List Char))) (text : List Char) (strays : Bool) :
    Action Unit :=
  match path with
  | none => say text
  | some .nothing => halt (.crash .noValue)
  | some (.value path) => if isStandard path then say text else writeText path text strays

/-- The log of storing a program: one line for each record up to the first fault. -/
def storeLog (calls : Nat) (text : List Char) : List Char :=
  let records := (Grammar.numberedRows text).map fun (row, line) =>
    (row, Record.ofLineOn (calls - 1) row line)
  (records.takeWhile fun (_, record) => record.toBool).flatMap fun (row, record) =>
    match record with
    | .ok bytes => logLine "DEBUG" "tokenizer"
        ("row " ++ toString row ++ ": " ++ String.ofList (Text.hexLower bytes))
    | .error _ => []

def recordHalt (fault : Record.Fault) : Halt :=
  match fault with
  | .tooLong row _ _ => .fault ("line " ++ toString (row + 1) ++ ": " ++ fault.message)
  | .numeral fault => .fault fault.message
  | .depth => .crash (.overflow .depth)

/-- The stored form of a program. -/
def stored (calls : Nat) (text : List Char) : Action (List UInt8) :=
  match Record.storeOn calls text with
  | .ok code => pure code
  | .error fault => halt (recordHalt fault)

def layoutMessage (fault : Memory.Fault) : String := "Memory layout - " ++ fault.message

/-- What is written for a stored program: the program alone, or an image that holds it. -/
def storedData (code : List UInt8) (image : Bool) (himem lomem : Given Int) :
    Action (List UInt8) :=
  if image then
    match himem, lomem with
    | .value himem, .value lomem => ofExcept layoutMessage (Memory.create code himem lomem)
    | _, _ => halt (.crash .noValue)
  else pure code

def runTokenize (verbose : Bool) (input : List Char) (output : Option (Given (List Char)))
    (hex image : Bool) (himem lomem : Given Int) : Action Unit := do
  let text ← readText input
  let calls ← room
  note (if verbose then storeLog calls text else [])
  let code ← stored calls text
  if hex then say (Text.hexUpper code ++ ['\n'])
  else do
    let data ← storedData code image himem lomem
    let path := storePath output
    write path data
    note ("Wrote " ++ toString data.length ++ " bytes to " ++ String.ofList path ++ "\n").toList

/-- Lists the program between bounds as they were given. A bound has to have a value, unless the
other is to be taken from pointers that are not there: then there is no program in any case. -/
def listGiven (settings : Settings) (data : List UInt8) (start stop : Option (Given Int)) :
    Action Memory.Listing :=
  let isKnown := (start.isSome && stop.isSome) || (Memory.bounds? data).isSome
  if isKnown && (start == some .nothing || stop == some .nothing) then halt (.crash .noValue)
  else pure (Memory.list settings data (start.bind Given.toOption) (stop.bind Given.toOption))

def listData (settings : Settings) (data : List UInt8) (raw : Bool)
    (start stop : Option (Given Int)) : Action Memory.Listing :=
  let isBare := raw || (data.length < Memory.imageSize && start.isNone && stop.isNone)
  if isBare then
    listGiven settings data (some (start.getD (.value 0))) (some (stop.getD (.value data.length)))
  else listGiven settings data start stop

def runDetokenize (settings : Settings) (input : List Char)
    (output : Option (Given (List Char))) (raw : Bool) (start stop : Option (Given Int)) :
    Action Unit := do
  let data ← readBytes input
  let listing ← listData settings data raw start stop
  note (match listing.warning with
    | some warning => logLine "WARNING" "detokenizer" warning.message
    | none => [])
  if listing.text.isEmpty then do
    note (errorLine ("No program found in " ++ String.ofList input))
    halt (.exit 1)
  else deliver output listing.text false

def reportLine (input : List Char) (d : Analysis.Diagnostic) : List Char :=
  input ++ (":" ++ toString (d.span.start.row + 1) ++ ":" ++ toString (d.span.start.col + 1) ++
    ": " ++ d.finding.severity.shown ++ ": " ++ d.finding.message ++ "\n").toList

def analysisLog (analysis : Analysis) : List Char :=
  logLine "DEBUG" "diagnostics" (toString analysis.symbols.lines.length ++ " lines, " ++
    toString analysis.symbols.vars.length ++ " variables, " ++
    toString analysis.diagnostics.length ++ " diagnostics")

def runCheck (verbose : Bool) (settings : Settings) (input : List Char) : Action Unit := do
  let text ← readText input
  let _ ← fit (Grammar.programOn (← room) text)
  let analysis ← ofExcept Numeral.Fault.message (Analysis.ofProgram settings text)
  note (if verbose then analysisLog analysis else [])
  say (analysis.diagnostics.flatMap (reportLine input))
  if analysis.diagnostics.any (·.finding.severity == .error) then halt (.exit 1) else pure ()

def renumberLog (assigned : List (Renumber.Reference × Int)) : List Char :=
  if assigned.isEmpty then []
  else
    let pairs := (Renumber.mapping assigned).map fun (old, new) =>
      toString old ++ ": " ++ toString new
    logLine "DEBUG" "renumber" ("renumber mapping \x7b" ++ ", ".intercalate pairs ++ "\x7d")

def renumberHalt : Renumber.Fault → Halt
  | .row => .crash (.renumber .row)
  | .infinite => .crash (.renumber .infinite)
  | .numeral fault => .fault fault.message
  | fault => .fault ("Cannot renumber - " ++ fault.message)

def renumbering {α : Type} : Except Renumber.Fault α → Action α
  | .ok a => pure a
  | .error fault => halt (renumberHalt fault)

def parameterJson : Given (List Char) → Json
  | .nothing => .arr []
  | .value text => .str (String.ofList text)

def runRenumber (verbose : Bool) (input : List Char) (start step : Given (List Char))
    (lines : Option Renumber.Selection) (refs : Bool) (output : Option (Given (List Char)))
    (inPlace : Bool) : Action Unit := do
  let text ← readText input
  let strays ← hasStrays input
  let _ ← renumbering (Renumber.parameters (parameterJson start) (parameterJson step))
  let _ ← fit (Grammar.programOn (← room) text)
  let assigned ← renumbering
    (Renumber.assignments text (parameterJson start) (parameterJson step) lines)
  note (if verbose then renumberLog assigned else [])
  let edits ← renumbering (Renumber.editsOf text assigned refs)
  let result ← renumbering (match Document.applyEdits? text edits with
    | some result => .ok result
    | none => .error .row)
  if inPlace then
    if isStandard input then do
      note (errorLine "Cannot rewrite standard input in place")
      halt (.exit 1)
    else deliver (some (.value input)) result strays
  else deliver output result strays

def runServe (host : Given (List Char)) (portNumber : Given Int) : Action Unit :=
  say ("Starting server on http://".toList ++ host.shown id ++ [':'] ++
    portNumber.shown Numeral.decimalInt ++ ['\n'])

/-- The settings of a file that was read. Settings that are not as they should be are answered
only where a number in them cannot be read. -/
def settingsOf (value : Json) : Action Settings :=
  match Settings.ofJson value with
  | .ok settings => pure settings
  | .error (.number (.numeral fault)) => halt (.fault fault.message)
  | .error (.number .nan) => halt (.fault (Json.Fault.message .nan))
  | .error fault => halt (.crash (.settings fault))

def loadSettings (path : Option (List Char)) : Action Settings :=
  match path with
  | none | some [] => pure {}
  | some path => do
    let bytes ← Action.read path
    let text ← ofExcept FileFault.message (textOf bytes)
    let value ← ofExcept (fun problem : Json.Reader.Problem => problem.message text) (Json.read text)
    settingsOf value

def runCommand (verbose : Bool) (settings : Settings) : Command → Action Unit
  | .tokenize input output hex image himem lomem =>
    runTokenize verbose input output hex image himem lomem
  | .detokenize input output raw start stop => runDetokenize settings input output raw start stop
  | .check input => runCheck verbose settings input
  | .renumber input start step lines refs output inPlace =>
    runRenumber verbose input start step lines refs output inPlace
  | .serve host portNumber => runServe host portNumber

def runInvocation (invocation : Invocation) : Action Unit := do
  let settings ← loadSettings invocation.settings
  runCommand invocation.verbose settings invocation.command

inductive Ending where
  | exit (status : Nat)
  | crash (crash : Crash)
  deriving DecidableEq, Repr

/-- Ends a command. A fault that is left is answered on the error output. -/
def conclude : Except Halt Unit × Session → Ending × Session
  | (.ok (), session) => (.exit 0, session)
  | (.error (.exit status), session) => (.exit status, session)
  | (.error (.crash crash), session) => (.crash crash, session)
  | (.error (.fault message), session) =>
    (.exit 1, { session with stderr := session.stderr ++ errorLine message })

def usage : List Char := "usage: intbas [-h] [--settings SETTINGS] [--verbose] COMMAND\n".toList

/-- What is said in place of a command, and the status that is left. -/
def advise : Stop → Action Unit
  | .help => say usage
  | .noCommand => do
    say usage
    halt (.exit 1)
  | .usage => do
    note usage
    halt (.exit 2)

/-- Carries out a command line among the files there are. -/
def perform (world : World) (words : List (List Char)) : Ending × Session :=
  let action := match parse words with
    | .error stop => advise stop
    | .ok invocation => runInvocation invocation
  conclude (action { world := world })

def changedFiles (before after : World) : List (String × List UInt8) :=
  after.files.filter fun (name, _) => Table.get? before.files name != Table.get? after.files name

/-- What a command line comes to. -/
def run (world : World) (words : List (List Char)) : Except Crash Outcome :=
  match perform world words with
  | (.crash crash, _) => .error crash
  | (.exit status, session) =>
    .ok ⟨status, session.stdout, session.stderr, changedFiles world session.world⟩

end IntegerBasic.CommandLine
