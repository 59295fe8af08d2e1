import IntegerBasic.CommandLine.Run

/-!
# The program

Reads the files that the command line names, runs the command, and writes what it gives.
-/

namespace IntegerBasic.CommandLine

partial def readAll (stream : IO.FS.Stream) (done : ByteArray) : IO ByteArray := do
  let chunk ← stream.read 65536
  if chunk.isEmpty then return done else readAll stream (done ++ chunk)

def readFile? (path : List Char) : IO (Option (String × List UInt8)) := do
  try
    let bytes ← IO.FS.readBinFile (String.ofList path)
    return some (fileName path, bytes.toList)
  catch _ => return none

/-- What a command line needs. The directory that it writes to is taken to be there. -/
def gather (invocation : Invocation) : IO World := do
  let files ← invocation.paths.filterMapM readFile?
  let input ← if invocation.command.input?.any isStandard then readAll (← IO.getStdin) .empty
    else pure .empty
  return { files, input := input.toList, folders := invocation.command.output?.toList.map folder }

def carryOut (outcome : Outcome) : IO UInt32 := do
  for (name, bytes) in outcome.writes do
    IO.FS.writeBinFile name ⟨bytes.toArray⟩
  IO.print (String.ofList outcome.stdout)
  IO.eprint (String.ofList outcome.stderr)
  return outcome.exit.toUInt32

/-- Carries out a command line. If a file cannot be written, the directories that were taken to
be there are given up. -/
def execute (words : List (List Char)) : IO UInt32 := do
  let world ← match parse words with
    | .ok invocation => gather invocation
    | .error _ => pure { files := [], input := [] }
  match run world words with
  | .error _ =>
    IO.eprintln "Error: the settings or the options are not as they should be"
    return 1
  | .ok outcome =>
    try carryOut outcome
    catch fault =>
      match run { world with folders := [] } words with
      | .ok cautious => carryOut cautious
      | .error _ => throw fault

end IntegerBasic.CommandLine

def main (arguments : List String) : IO UInt32 :=
  IntegerBasic.CommandLine.execute (arguments.map (·.toList))
