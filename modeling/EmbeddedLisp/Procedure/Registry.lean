import EmbeddedLisp.Procedure.Keyword
import EmbeddedLisp.Procedure.Library

/-! The words that the language itself gives a meaning to. -/
namespace EmbeddedLisp

/-- How many arguments the entry of a procedure declares. What the procedure enforces is a matter of
its operation. -/
def Builtin.arity : Builtin → Arity
  | .add | .subtract | .multiply | .divide | .modulo => .exactly 2
  | .abs | .factorial => .exactly 1
  | .max | .min => .atLeast 1
  | .equal | .less | .greater | .lessOrEqual | .greaterOrEqual => .exactly 2
  | .not => .exactly 1
  | .ceil | .floor | .fabs | .trunc | .frexp | .isinf | .isnan | .fsum => .exactly 1
  | .fmod | .ldexp | .copysign => .exactly 2
  | .car | .cdr | .null => .exactly 1
  | .append | .cons => .exactly 2
  | .list => .any

namespace Registry

inductive Entry where
  | form (keyword : Keyword)
  | function (procedure : Builtin)
deriving DecidableEq

/-- The words for special forms, and after them those for builtin procedures. -/
def entries : List Entry := Keyword.all.map .form ++ Builtin.all.map .function

namespace Entry

def name : Entry → String
  | .form keyword => keyword.name
  | .function procedure => procedure.name

def isForm : Entry → Bool
  | .form _ => true
  | .function _ => false

def arity : Entry → Arity
  | .form keyword => keyword.arity
  | .function procedure => procedure.arity

/-- The text of an entry in a listing. -/
def diagnose (entry : Entry) : String :=
  let kind := if entry.isForm then "SpecialForm(<fn>)" else "Function(<fn>)"
  "BuiltinOp \x7b scheme_id: \"" ++ entry.name ++ "\", op_kind: " ++ kind ++ ", arity: " ++
    entry.arity.diagnose ++ " \x7d"

end Entry

/-- The entry by a name. No two entries have the same one. -/
def find? (name : String) : Option Entry := entries.find? (·.name = name)

end Registry

end EmbeddedLisp
