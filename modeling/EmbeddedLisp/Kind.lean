/-! The kinds of values, and what a parameter accepts of them. -/
namespace EmbeddedLisp

/-- The kinds of values that procedures tell apart. -/
inductive Kind where
  | integer
  | float
  | text
  | boolean
  | list
  | procedure
deriving DecidableEq

def Kind.name : Kind → String
  | .integer => "integer"
  | .float => "float"
  | .text => "text"
  | .boolean => "boolean"
  | .list => "list"
  | .procedure => "procedure"

/-- What a parameter of a procedure accepts. A number is an integer or a float. -/
inductive Parameter where
  | any
  | integer
  | float
  | number
  | list
deriving DecidableEq

def Parameter.name : Parameter → String
  | .any => "value"
  | .integer => "integer"
  | .float => "float"
  | .number => "number"
  | .list => "list"

end EmbeddedLisp
