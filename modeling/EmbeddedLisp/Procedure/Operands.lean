import EmbeddedLisp.Number
import EmbeddedLisp.Value

/-! What the binary operators agree on: which pairs of values they combine. Two integers stay
integers, any other pair of numbers is taken as floats, and text goes only with text. -/
namespace EmbeddedLisp

inductive Operands where
  | integers (left right : Fixnum)
  | floats (left right : Binary64)
  | texts (left right : String)

namespace Operands

/-- An integer next to a float is taken for a float. Nothing else is converted. -/
def ofValues (operator : Builtin) : Value → Value → Except Fault Operands
  | .integer a, .integer b => .ok (.integers a b)
  | .float x, .float y => .ok (.floats x y)
  | .integer a, .float y => .ok (.floats (.ofInt a.toInt) y)
  | .float x, .integer b => .ok (.floats x (.ofInt b.toInt))
  | .text s, .text t => .ok (.texts s t)
  | v, w => .error (.cannotCombine operator v.kind w.kind)

/-- The order of two operands. Texts are in the order of their code points, and only floats can be
without order. -/
def compare? : Operands → Option Ordering
  | .integers a b => some (compare a.toInt b.toInt)
  | .floats x y => x.compare? y
  | .texts s t => some (compare s t)

end Operands

end EmbeddedLisp
