import IntegerBasic.Index
import IntegerBasic.Memory.Image
import IntegerBasic.Record.Listing
import IntegerBasic.Settings

/-!
# Listing of images

The listing of the program in a memory image. Where the program begins and ends is given, or
else taken from the pointers. An image without a program gives an empty listing and a warning.
-/

namespace IntegerBasic.Memory

inductive Warning where
  | noPointers (size : Nat)
  | noProgram (start stop : Int)
  | truncated (address : Nat)
  deriving DecidableEq, Repr

def Warning.message : Warning → String
  | .noPointers size => "image of " ++ toString size ++ " bytes has no program pointers"
  | .noProgram start stop => "no program between " ++ toString start ++ " and " ++ toString stop
  | .truncated address => "record at " ++ toString address ++ " is truncated"

structure Listing where
  text : List Char
  warning : Option Warning
  deriving DecidableEq, Repr

def listBetween (settings : Settings) (image : Image) (start stop : Int) : Listing :=
  if start < 0 || stop < start || image.length ≤ start then ⟨[], some (.noProgram start stop)⟩
  else
    let listing := Record.listAll settings.escapes start.toNat stop (image.drop start.toNat)
    ⟨listing.text, listing.truncated.map .truncated⟩

/-- Lists the program in an image. A bound that is not given is taken from the pointers. -/
def list (settings : Settings) (image : Image) (start stop : Option Int) : Listing :=
  match start, stop with
  | some start, some stop => listBetween settings image start stop
  | _, _ =>
    match bounds? image with
    | none => ⟨[], some (.noPointers image.length)⟩
    | some (first, last) => listBetween settings image (start.getD first) (stop.getD last)

/-- One record of an image by its address: its text, or none if the image ends before the
record does, and the address behind what was read. -/
def listRecord? (settings : Settings) (image : Image) (address : Int) :
    Option (Option (List Char) × Int) := do
  let bytes ← Index.from? image (address + 1)
  let listed ← Record.list? settings.escapes bytes
  return (listed.line, address + 1 + listed.consumed)

/-- Shows bytes of an image as text from an address up to a terminator: the text and the address
of the terminator. -/
def showText? (escapes terminators : List Int) (image : Image) (address : Int) :
    Option (List Char × Int) := do
  let bytes ← Index.from? image address
  let (text, rest) := Record.showText escapes terminators bytes
  return (text, address + (bytes.length - rest.length : Nat))

end IntegerBasic.Memory
