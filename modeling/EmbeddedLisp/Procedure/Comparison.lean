import EmbeddedLisp.Procedure.Operands
import EmbeddedLisp.Procedure.Operation

/-! Comparison of values, and the largest and the smallest of several numbers. -/
namespace EmbeddedLisp.Comparison

/-- Whether the order of two values is one of those that an operator accepts. Values without order
satisfy none. -/
def holds (operator : Builtin) (accepted : List Ordering) (v w : Value) : Except Fault Value := do
  let operands ← Operands.ofValues operator v w
  return .boolean (operands.compare?.any accepted.contains)

/-- The number that replaces the first of them whenever a later one compares with it as `wins`
says. -/
def best (wins : Ordering) (first : Number) (rest : List Number) : Number :=
  rest.foldl (fun current candidate =>
    if candidate.compare? current = some wins then candidate else current) first

/-- The best of at least one number, as a float if any of them is a float. -/
def extremum (wins : Ordering) (values : List Value) : Except Fault Value := do
  match ← values.mapM Parameter.number.convert with
  | [] => throw (.wrongCount (.atLeast 1) 0)
  | first :: rest =>
    match best wins first rest with
    | .float x => return .float x
    | .integer n =>
      if (first :: rest).any Number.isFloat then return .float (.ofInt n.toInt)
      else return .integer n

end EmbeddedLisp.Comparison
