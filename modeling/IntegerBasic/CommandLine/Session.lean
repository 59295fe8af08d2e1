import IntegerBasic.CommandLine.Files
import IntegerBasic.Renumber
import IntegerBasic.Settings

/-!
# Sessions

A command runs in a session: it reads and changes the files there are, and says something on the
standard output and on the error output. What a command has done before it fails stays done.
-/

namespace IntegerBasic.CommandLine

inductive Crash where
  | settings (fault : Settings.Fault)
  | renumber (fault : Renumber.Fault)
  /-- An option that was given nothing has to have a value. -/
  | noValue
  | overflow (overflow : Grammar.Overflow)
  deriving DecidableEq, Repr

inductive Halt where
  /-- A fault that is answered with a message. -/
  | fault (message : String)
  /-- All is said, and a status is left. -/
  | exit (status : Nat)
  | crash (crash : Crash)
  deriving DecidableEq, Repr

structure Session where
  world : World
  stdout : List Char := []
  stderr : List Char := []

/-- A part of a command: what it gives or why it does not go on, and the session behind it. -/
def Action (α : Type) : Type := Session → Except Halt α × Session

namespace Action

instance : Monad Action where
  pure a := fun session => (.ok a, session)
  bind action next := fun session =>
    match action session with
    | (.ok a, session) => next a session
    | (.error halt, session) => (.error halt, session)

def halt {α : Type} (reason : Halt) : Action α := fun session => (.error reason, session)

def ofExcept {ε α : Type} (message : ε → String) : Except ε α → Action α
  | .ok a => pure a
  | .error fault => halt (.fault (message fault))

def say (text : List Char) : Action Unit := fun session =>
  (.ok (), { session with stdout := session.stdout ++ text })

def note (text : List Char) : Action Unit := fun session =>
  (.ok (), { session with stderr := session.stderr ++ text })

def read (path : List Char) : Action (List UInt8) := fun session =>
  ofExcept FileFault.message (session.world.read path) session

def readBytes (path : List Char) : Action (List UInt8) := fun session =>
  ofExcept FileFault.message (session.world.readBytes path) session

def readText (path : List Char) : Action (List Char) := fun session =>
  ofExcept FileFault.message (session.world.readText path) session

def hasStrays (path : List Char) : Action Bool := fun session =>
  (.ok (session.world.hasStrays path), session)

/-- How many calls there is room for. -/
def room : Action Nat := fun session => (.ok session.world.calls, session)

/-- A result for which there may be too little room. -/
def fit {α : Type} : Except Grammar.Overflow α → Action α
  | .ok a => pure a
  | .error overflow => halt (.crash (.overflow overflow))

/-- Opens a file for writing. If that can be done, nothing is in it any more. -/
def openFile (path : List Char) : Action Unit := fun session =>
  match session.world.canWrite path with
  | .error fault => halt (.fault fault.message) session
  | .ok () => (.ok (), { session with world := session.world.put (fileName path) [] })

def append (path : List Char) (bytes : List UInt8) : Action Unit := fun session =>
  let before := (Table.get? session.world.files (fileName path)).getD []
  (.ok (), { session with world := session.world.put (fileName path) (before ++ bytes) })

def write (path : List Char) (bytes : List UInt8) : Action Unit := do
  openFile path
  append path bytes

/-- Writes a text to a file. Stray characters in it are seen only when the file is open. -/
def writeText (path : List Char) (text : List Char) (strays : Bool) : Action Unit := do
  openFile path
  if strays then halt (.fault (Text.Utf8.strayMessage text))
  else append path (Text.Utf8.encode text)

end Action

end IntegerBasic.CommandLine
