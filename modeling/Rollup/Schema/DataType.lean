import Rollup.Text.Character

/-! The data types of columns. -/

set_option autoImplicit false

namespace Rollup

inductive DataType where
  | string
  | int
  | float
  | bool
  | timestamp
  deriving DecidableEq, Repr

namespace DataType

def name : DataType → String
  | .string => "string"
  | .int => "int"
  | .float => "float"
  | .bool => "bool"
  | .timestamp => "timestamp"

def words : List (String × DataType) :=
  [("string", .string), ("int", .int), ("integer", .int), ("long", .int), ("float", .float),
    ("double", .float), ("decimal", .float), ("bool", .bool), ("boolean", .bool),
    ("timestamp", .timestamp)]

def ofWord? (word : String) : Option DataType := words.lookup word

def ofName? (name : String) : Option DataType := ofWord? (Text.wordLower name)

def isNumeric : DataType → Bool
  | .int | .float => true
  | _ => false

/-- The type of arithmetic over two operands: whole numbers stay whole, all else is a float. -/
def widen : DataType → DataType → DataType
  | .int, .int => .int
  | _, _ => .float

end DataType

end Rollup
