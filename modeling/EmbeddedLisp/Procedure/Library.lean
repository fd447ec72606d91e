import EmbeddedLisp.Number.Binary64.Scaling
import EmbeddedLisp.Procedure.Arithmetic
import EmbeddedLisp.Procedure.Comparison

/-! What each builtin procedure does. -/
namespace EmbeddedLisp

namespace Operation

/-- A function on any one value. -/
def onValue (f : Value → Value) : Operation :=
  .typed [.any] fun (v, ()) => .ok (f v)

/-- A function on any two values that may reject them. -/
def onValues (f : Value → Value → Except Fault Value) : Operation :=
  .typed [.any, .any] fun (v, w, ()) => f v w

/-- A function on one float. -/
def onFloat (f : Binary64 → Value) : Operation :=
  .typed [.float] fun (x, ()) => .ok (f x)

/-- A function on one list that may reject it. -/
def onList (f : List Value → Except Fault Value) : Operation :=
  .typed [.list] fun (vs, ()) => f vs

end Operation

namespace Library

/-- The first element of a list. -/
def first : List Value → Except Fault Value
  | [] => .error .firstOfEmpty
  | v :: _ => .ok v

/-- A list without its first element. -/
def rest : List Value → Except Fault Value
  | [] => .error .restOfEmpty
  | _ :: vs => .ok (.list vs)

/-- The mantissa and the exponent of a number. -/
def split (x : Binary64) : Value :=
  let (mantissa, exponent) := x.split
  .list [.float mantissa, .integer exponent]

end Library

/-- What a builtin procedure does with its arguments. -/
def Builtin.operation : Builtin → Operation
  | .add => .onValues Arithmetic.add
  | .subtract => .onValues Arithmetic.subtract
  | .multiply => .onValues Arithmetic.multiply
  | .divide => .onValues Arithmetic.divide
  | .modulo => .typed [.integer, .integer] fun (a, b, ()) => Arithmetic.modulo a b
  | .abs => .typed [.number] fun (n, ()) => Arithmetic.abs n
  | .factorial => .typed [.integer] fun (n, ()) => Arithmetic.factorial n
  | .max => .variadic (.atLeast 1) (Comparison.extremum .gt)
  | .min => .variadic (.atLeast 1) (Comparison.extremum .lt)
  | .equal => .onValues (Comparison.holds .equal [.eq])
  | .less => .onValues (Comparison.holds .less [.lt])
  | .greater => .onValues (Comparison.holds .greater [.gt])
  | .lessOrEqual => .onValues (Comparison.holds .lessOrEqual [.lt, .eq])
  | .greaterOrEqual => .onValues (Comparison.holds .greaterOrEqual [.gt, .eq])
  | .not => .onValue fun v => .boolean (!v.isTrue)
  | .ceil => .onFloat fun x => .float x.ceil
  | .floor => .onFloat fun x => .float x.floor
  | .fabs => .onFloat fun x => .float x.abs
  | .trunc => .onFloat fun x => .float x.trunc
  | .fmod => .typed [.float, .float] fun (x, y, ()) => .ok (.float (x.remainder y))
  | .frexp => .onFloat Library.split
  | .ldexp => .typed [.float, .integer] fun (x, n, ()) => .ok (.float (x.scale n.toInt))
  | .copysign => .typed [.number, .number] fun (m, s, ()) => Arithmetic.copySign m s
  | .isinf => .onFloat fun x => .boolean x.isInfinite
  | .isnan => .onValue fun v => .boolean (!v.isNumeric)
  | .fsum => .onList Arithmetic.sum
  | .car => .onList Library.first
  | .cdr => .onList Library.rest
  | .append => .typed [.list, .list] fun (vs, ws, ()) => .ok (.list (vs ++ ws))
  | .cons => .typed [.any, .list] fun (v, vs, ()) => .ok (.list (v :: vs))
  | .list => .variadic .any fun vs => .ok (.list vs)
  | .null => .onValue fun v => .boolean v.isNil

end EmbeddedLisp
