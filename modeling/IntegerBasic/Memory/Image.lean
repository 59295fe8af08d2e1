import IntegerBasic.Record.Encoding

/-!
# Memory images

An image is the memory of the machine from address zero on, or as much of it as was saved. A
program stands right below HIMEM and begins at PP; variables grow upward from LOMEM and end at
PV. These four pointers are words in page zero.
-/

namespace IntegerBasic.Memory

abbrev Image := List UInt8

def lomemAddress : Nat := 0x4A

def himemAddress : Nat := 0x4C

/-- Where the address of the first record is kept. -/
def programAddress : Nat := 0xCA

/-- Where the address behind the last variable is kept. -/
def variablesAddress : Nat := 0xCC

/-- An image with fewer bytes does not hold the pointers. -/
def pointersEnd : Nat := 0xCE

def imageSize : Nat := 0x10000

def defaultHimem : Nat := 0x9600

def defaultLomem : Nat := 0x0800

/-- Where a word at an address lies in an image of the given size. A negative address counts
from the end. The word has to fit. -/
def wordOffset? (size : Nat) (address : Int) : Option Nat :=
  if address < 0 then
    if 0 < address + 2 || address + size < 0 then none else some (address + size).toNat
  else if address + 2 ≤ size then some address.toNat
  else none

def wordAt (image : Image) (offset : Nat) : Nat :=
  Record.wordValue (image.getD offset 0) (image.getD (offset + 1) 0)

def putBytes (image : Image) (offset : Nat) (bytes : List UInt8) : Image :=
  image.take offset ++ bytes ++ image.drop (offset + bytes.length)

theorem length_putBytes {image : Image} {offset : Nat} {bytes : List UInt8}
    (h : offset + bytes.length ≤ image.length) :
    (putBytes image offset bytes).length = image.length := by
  simp only [putBytes, List.length_append, List.length_take, List.length_drop]
  omega

/-- Bytes outside the stretch stay as they are. -/
theorem getElem?_putBytes_of_outside {image : Image} {offset i : Nat} {bytes : List UInt8}
    (h : offset + bytes.length ≤ image.length) (hi : i < offset ∨ offset + bytes.length ≤ i) :
    (putBytes image offset bytes)[i]? = image[i]? := by
  simp only [putBytes, List.append_assoc]
  rcases hi with hi | hi
  · rw [List.getElem?_append_left (by simp only [List.length_take]; omega),
      List.getElem?_take_of_lt hi]
  · rw [List.getElem?_append_right (by simp only [List.length_take]; omega),
      List.getElem?_append_right (by simp only [List.length_take]; omega), List.getElem?_drop]
    simp only [List.length_take]
    congr 1
    omega

/-- Inside the stretch stand the bytes that were put there. -/
theorem getElem?_putBytes_of_inside {image : Image} {offset i : Nat} {bytes : List UInt8}
    (h : offset + bytes.length ≤ image.length) (hi : i < bytes.length) :
    (putBytes image offset bytes)[offset + i]? = bytes[i]? := by
  simp only [putBytes, List.append_assoc]
  rw [List.getElem?_append_right (by simp only [List.length_take]; omega),
    List.getElem?_append_left (by simp only [List.length_take]; omega)]
  simp only [List.length_take]
  congr 1
  omega

def putWord (image : Image) (offset : Nat) (value : Nat) : Image :=
  putBytes image offset (Record.wordBytes value)

inductive AccessFault where
  /-- The word does not lie within the image. -/
  | outside
  /-- The number is no address of any image: it has more than 63 bits. -/
  | noAddress
  deriving DecidableEq, Repr

/-- A number that can be the address of a byte of some image. -/
def isAddress (address : Int) : Bool :=
  -0x8000000000000000 ≤ address && address < 0x8000000000000000

def wordOffset (size : Nat) (address : Int) : Except AccessFault Nat :=
  if isAddress address then
    match wordOffset? size address with
    | some offset => .ok offset
    | none => .error .outside
  else .error .noAddress

def readWord (image : Image) (address : Int) : Except AccessFault Nat :=
  (wordOffset image.length address).map (wordAt image)

/-- A word of page zero is where its address says, if it lies in the image. -/
theorem wordOffset_eq {size offset : Nat} (h : offset + 2 ≤ size) (haddress : offset < 256) :
    wordOffset size offset = .ok offset := by
  have hplace : wordOffset? size offset = some offset := by
    rw [wordOffset?, if_neg (by omega), if_pos (by omega), Int.toNat_natCast]
  have haddress : isAddress offset = true :=
    Bool.and_eq_true_iff.2 ⟨decide_eq_true (by omega), decide_eq_true (by omega)⟩
  rw [wordOffset, if_pos haddress, hplace]

theorem readWord_eq {image : Image} {offset : Nat} (h : offset + 2 ≤ image.length)
    (haddress : offset < 256) : readWord image offset = .ok (wordAt image offset) := by
  rw [readWord, wordOffset_eq h haddress, Except.map]

/-- Writes a word, taken modulo 65536. -/
def writeWord (image : Image) (address value : Int) : Except AccessFault Image :=
  (wordOffset image.length address).map fun offset => putWord image offset (value % 65536).toNat

/-- Where the program begins and ends by the pointers; none if the image does not hold them. -/
def bounds? (image : Image) : Option (Nat × Nat) :=
  if image.length < pointersEnd then none
  else some (wordAt image programAddress, wordAt image himemAddress)

end IntegerBasic.Memory
