/-!
# The two types of value

Integer BASIC knows integers and strings. A name that ends in `$` is a string name.
-/

namespace IntegerBasic

inductive DataType where
  | integer
  | string
  deriving DecidableEq, Repr

def DataType.tag : DataType → String
  | .integer => "int"
  | .string => "str"

end IntegerBasic
