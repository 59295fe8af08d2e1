import IntegerBasic.Grammar.Stack
import IntegerBasic.Table
import IntegerBasic.Text.Lines
import IntegerBasic.Text.Quoted
import IntegerBasic.Text.Utf8

/-!
# Files

What a command can read and where it can write, given as data. A path is a list of steps; an
empty first step stands for the root. Files are kept under the names that their steps spell.
-/

namespace IntegerBasic.CommandLine

/-- What a command finds. -/
structure World where
  files : List (String × List UInt8)
  input : List UInt8
  /-- The directories beside the current one that files can be written to, by their steps. -/
  folders : List (List String) := []
  /-- The standard input is read leniently. A file never is. -/
  isLenient : Bool := false
  calls : Nat := Grammar.stackLimit

inductive FileFault where
  | missing (path : List Char)
  | notDirectory (path : List Char)
  | directory (path : List Char)
  | longName (path : List Char)
  | nul
  | encoding (fault : Text.Utf8.Fault)
  deriving DecidableEq, Repr

def FileFault.message : FileFault → String
  | .missing path => "[Errno 2] No such file or directory: " ++ String.ofList (Text.quoted path)
  | .notDirectory path => "[Errno 20] Not a directory: " ++ String.ofList (Text.quoted path)
  | .directory path => "[Errno 21] Is a directory: " ++ String.ofList (Text.quoted path)
  | .longName path => "[Errno 36] File name too long: " ++ String.ofList (Text.quoted path)
  | .nul => "embedded null byte"
  | .encoding fault => fault.message

/-- A single dash stands for the standard input or output. -/
def isStandard (path : List Char) : Bool := path == ['-']

/-- The steps of a path, without those that lead nowhere. -/
def steps (path : List Char) : List String :=
  let named := ((String.ofList path).splitOn "/").filter fun step => step != "" && step != "."
  if path.head? == some '/' then "" :: named else named

def fileName (path : List Char) : String := "/".intercalate (steps path)

def folder (path : List Char) : List String := (steps path).dropLast

/-- A path that leads to the root, to the current directory or to one above it. -/
def isDirectory (path : List Char) : Bool :=
  !path.isEmpty && (steps path).all fun step => step == "" || step == ".."

def byteSize (text : List Char) : Nat := (Text.Utf8.encode text).length

/-- The path, or the first step of it, has more bytes than a path or a step may have. -/
def isTooLong (path : List Char) : Bool :=
  4096 ≤ byteSize path || ((steps path).head?.any fun step => 255 < byteSize step.toList)

def endsOpen (path : List Char) : Bool := path.getLast? == some '/'

def endsInDot (path : List Char) : Bool :=
  ((String.ofList path).splitOn "/").getLast? == some "."

namespace World

def has (world : World) (path : List Char) : Bool :=
  (Table.get? world.files (fileName path)).isSome

def goesThroughFile (world : World) (path : List Char) : Bool :=
  world.files.any fun (name, _) =>
    (steps name.toList).isPrefixOf (steps path) && name != fileName path

def read (world : World) (path : List Char) : Except FileFault (List UInt8) :=
  if path.contains '\x00' then .error .nul
  else if isTooLong path then .error (.longName path)
  else if isDirectory path then .error (.directory path)
  else if world.goesThroughFile path then .error (.notDirectory path)
  else
    match Table.get? world.files (fileName path) with
    | none => .error (.missing path)
    | some bytes =>
      if endsOpen path || endsInDot path then .error (.notDirectory path) else .ok bytes

def canWrite (world : World) (path : List Char) : Except FileFault Unit :=
  if path.contains '\x00' then .error .nul
  else if isTooLong path then .error (.longName path)
  else if isDirectory path then .error (.directory path)
  else if world.goesThroughFile path then .error (.notDirectory path)
  else if path.isEmpty || !((folder path).isEmpty || world.folders.contains (folder path)) then
    .error (.missing path)
  else if endsOpen path then .error (.directory path)
  else if endsInDot path then
    .error (if world.has path then .notDirectory path else .missing path)
  else .ok ()

/-- The same with other bytes in a file, which may be a new one. -/
def put (world : World) (name : String) (bytes : List UInt8) : World :=
  { world with files := Table.put world.files name bytes }

def readBytes (world : World) (path : List Char) : Except FileFault (List UInt8) :=
  if isStandard path then .ok world.input else world.read path

end World

/-- Bytes as the text of a file, with every line ended by a line feed. -/
def textOf (bytes : List UInt8) : Except FileFault (List Char) :=
  match Text.Utf8.decode bytes with
  | .ok text => .ok (Text.unifyNewlines text)
  | .error fault => .error (.encoding fault)

/-- The standard input is read as text. Either it is one or the bytes that are none are a fault. -/
def World.readsText (world : World) : Bool :=
  !world.isLenient || (Text.Utf8.decode world.input).toBool

/-- There are stray characters in the text that is read from a path. -/
def World.hasStrays (world : World) (path : List Char) : Bool :=
  isStandard path && !world.readsText

def World.readText (world : World) (path : List Char) : Except FileFault (List Char) :=
  if world.hasStrays path then
    .ok (Text.unifyNewlines (Text.Utf8.decodeLeniently world.input))
  else do textOf (← world.readBytes path)

end IntegerBasic.CommandLine
