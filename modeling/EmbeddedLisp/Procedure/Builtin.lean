/-! The procedures that every global frame starts with. -/
namespace EmbeddedLisp

inductive Builtin where
  | add
  | subtract
  | multiply
  | divide
  | modulo
  | abs
  | factorial
  | max
  | min
  | equal
  | less
  | greater
  | lessOrEqual
  | greaterOrEqual
  | not
  | ceil
  | floor
  | fabs
  | trunc
  | fmod
  | frexp
  | ldexp
  | copysign
  | isinf
  | isnan
  | fsum
  | car
  | cdr
  | append
  | cons
  | list
  | null
deriving DecidableEq

namespace Builtin

def all : List Builtin :=
  [.add, .subtract, .multiply, .divide, .modulo, .abs, .factorial, .max, .min,
    .equal, .less, .greater, .lessOrEqual, .greaterOrEqual, .not,
    .ceil, .floor, .fabs, .trunc, .fmod, .frexp, .ldexp, .copysign, .isinf, .isnan, .fsum,
    .car, .cdr, .append, .cons, .list, .null]

/-- The word to which the procedure is bound. -/
def name : Builtin → String
  | .add => "+"
  | .subtract => "-"
  | .multiply => "*"
  | .divide => "/"
  | .modulo => "%"
  | .abs => "abs"
  | .factorial => "factorial"
  | .max => "max"
  | .min => "min"
  | .equal => "="
  | .less => "<"
  | .greater => ">"
  | .lessOrEqual => "<="
  | .greaterOrEqual => ">="
  | .not => "not"
  | .ceil => "ceil"
  | .floor => "floor"
  | .fabs => "fabs"
  | .trunc => "trunc"
  | .fmod => "fmod"
  | .frexp => "frexp"
  | .ldexp => "ldexp"
  | .copysign => "copysign"
  | .isinf => "isinf"
  | .isnan => "isnan"
  | .fsum => "fsum"
  | .car => "car"
  | .cdr => "cdr"
  | .append => "append"
  | .cons => "cons"
  | .list => "list"
  | .null => "null?"

/-- What a procedure does with integers, as it is called when their result is out of range. -/
def activity : Builtin → String
  | .add => "addition"
  | .subtract => "subtraction"
  | .multiply => "multiplication"
  | .divide => "division"
  | .modulo => "modulo"
  | builtin => builtin.name

def ofName? (name : String) : Option Builtin := all.find? (·.name = name)

/-- Each procedure has a word of its own. -/
theorem ofName?_eq_some_iff {word : String} {builtin : Builtin} :
    ofName? word = some builtin ↔ builtin.name = word := by
  constructor
  · intro h
    simpa using List.find?_some h
  · rintro rfl
    cases builtin <;> rfl

end Builtin

end EmbeddedLisp
