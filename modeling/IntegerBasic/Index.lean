/-!
# Indices from both ends

A negative index counts from the end of a list.
-/

namespace IntegerBasic.Index

variable {α : Type}

def place? (size : Nat) (index : Int) : Option Nat :=
  if 0 ≤ index then
    if index < size then some index.toNat else none
  else if 0 ≤ index + size then some (index + size).toNat
  else none

/-- The place of an index, where one before the list is moved to its front. An index beyond the
end stays beyond it. -/
def floor (items : List α) (index : Int) : Nat :=
  if 0 ≤ index then index.toNat else items.length - index.natAbs

/-- The items that are read one after another from an index on. From a negative index reading
goes on at the front behind the end of the list. Before the list there is no place to begin. -/
def from? (items : List α) (index : Int) : Option (List α) :=
  if 0 ≤ index then some (items.drop index.toNat)
  else if 0 ≤ index + items.length then
    some (items.drop (index + items.length).toNat ++ items)
  else none

end IntegerBasic.Index
