import IntegerBasic.Memory.Image

/-!
# Loading a program

A program is put into an image in place. What has been written into the image before a fault stays
written.
-/

namespace IntegerBasic.Memory

inductive Fault where
  | tooSmall
  | belowLomem (size lomem : Nat)
  | beyondEnd (himem : Nat)
  deriving DecidableEq, Repr

def Fault.message : Fault → String
  | .tooSmall => "Memory image is too small to hold the zero-page pointers"
  | .belowLomem size lomem =>
    "Program of " ++ toString size ++ " bytes would start below LOMEM (" ++ toString lomem ++ ")"
  | .beyondEnd himem => "HIMEM (" ++ toString himem ++ ") is beyond the end of the image"

inductive Halt where
  | layout (fault : Fault)
  | access (fault : AccessFault)
  deriving DecidableEq, Repr

/-- Work on an image in place: what it gives or why it does not go on, and the image behind it. -/
def Action (α : Type) : Type := Image → Except Halt α × Image

namespace Action

instance : Monad Action where
  pure a := fun image => (.ok a, image)
  bind action next := fun image =>
    match action image with
    | (.ok a, image) => next a image
    | (.error halt, image) => (.error halt, image)

def halt {α : Type} (reason : Halt) : Action α := fun image => (.error reason, image)

def refuseIf (wrong : Prop) [Decidable wrong] (fault : Fault) : Action Unit :=
  if wrong then halt (.layout fault) else pure ()

def size : Action Nat := fun image => (.ok image.length, image)

def inspect {α : Type} (look : Image → Except AccessFault α) : Action α := fun image =>
  ((look image).mapError .access, image)

/-- Changes the image, which stays as it is on a fault. -/
def change (turn : Image → Except AccessFault Image) : Action Unit := fun image =>
  match turn image with
  | .ok image => (.ok (), image)
  | .error fault => (.error (.access fault), image)

def read (address : Nat) : Action Nat := inspect (readWord · address)

def write (address value : Nat) : Action Unit := change (writeWord · address value)

/-- Puts bytes in the place of a stretch. If there are more or fewer of them than the stretch has,
the image grows or shrinks. -/
def assign (start stop : Nat) (bytes : List UInt8) : Action Unit := fun image =>
  (.ok (), image.take start ++ bytes ++ image.drop stop)

end Action

/-- Puts a stored program into the image so that it ends at HIMEM, and sets the pointers. The table
of variables is emptied. The answer is where the program begins. -/
def place (code : List UInt8) : Action Nat := do
  let size ← Action.size
  Action.refuseIf (size < pointersEnd) .tooSmall
  let himem ← Action.read himemAddress
  let lomem ← Action.read lomemAddress
  Action.refuseIf (himem < lomem + code.length) (.belowLomem code.length lomem)
  Action.refuseIf (size < himem) (.beyondEnd himem)
  let start := himem - code.length
  Action.assign start himem code
  Action.write lomemAddress lomem
  Action.write variablesAddress lomem
  Action.write programAddress start
  Action.write himemAddress himem
  return start

/-- The image with a stored program placed in it, and where the program begins. An image that does
not hold a pointer is too small. -/
def load (image : Image) (code : List UInt8) : Except Fault (Image × Nat) :=
  match place code image with
  | (.ok start, image) => .ok (image, start)
  | (.error (.layout fault), _) => .error fault
  | (.error (.access _), _) => .error .tooSmall

/-- A full image that holds nothing but a program below the given HIMEM. -/
def create (code : List UInt8) (himem lomem : Int) : Except Fault Image := do
  let image := List.replicate imageSize 0
  let image := putWord image himemAddress (himem % 65536).toNat
  let image := putWord image lomemAddress (lomem % 65536).toNat
  return (← load image code).1

end IntegerBasic.Memory
