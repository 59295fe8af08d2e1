import IntegerBasic.Grammar.Program

/-!
# Padding of numbers

Before a line is stored every number in it is brought to at least three digits by zeros at the
front. The blanks around a number stay where they are.
-/

namespace IntegerBasic.Record

/-- A number brought to three characters. Its inner spaces go, the blanks around it stay. -/
def padNumber (text : List Char) : List Char :=
  text.takeWhile Text.isGap ++ (Text.withoutSpaces text).leftpad 3 '0' ++
    text.drop (Text.dropTail Text.isGap text).length

def splice (text : List Char) (start stop : Nat) (new : List Char) : List Char :=
  text.take start ++ new ++ text.drop stop

def numbers (tree : Node) : List Leaf := tree.leaves.filter (·.kind.isNumber)

/-- The line with some of its numbers padded, from the last to the first. -/
def padEach (numbers : List Leaf) (text : List Char) : List Char :=
  numbers.foldr
    (fun leaf line => splice line leaf.span.start.col leaf.span.stop.col (padNumber leaf.text)) text

/-- The line with every number padded. -/
def padNumbers (text : List Char) : List Char := padEach (numbers (Grammar.line 0 text)) text

end IntegerBasic.Record
