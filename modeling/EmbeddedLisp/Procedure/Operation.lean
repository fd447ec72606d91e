import EmbeddedLisp.Number
import EmbeddedLisp.Value

/-! Operations: functions on values, with a check of what they are given. The count of the arguments
is checked first, and then each argument is converted to what its parameter accepts, from left to
right. -/
namespace EmbeddedLisp

/-- Rejects a count of arguments that is not accepted. -/
def Arity.check (arity : Arity) (count : Nat) : Except Fault Unit :=
  if arity.accepts count then .ok () else .error (.wrongCount arity count)

/-- A number is a value of its kind. -/
def Number.toValue : Number → Value
  | .integer n => .integer n
  | .float x => .float x

namespace Parameter

/-- What an accepted argument is handed over as. -/
abbrev Carrier : Parameter → Type
  | .any => Value
  | .integer => Fixnum
  | .float => Binary64
  | .number => Number
  | .list => List Value

/-- No argument is converted from one kind to another: a float parameter does not accept an
integer. -/
def convert : (parameter : Parameter) → Value → Except Fault parameter.Carrier
  | .any, v => .ok v
  | .integer, .integer n => .ok n
  | .float, .float x => .ok x
  | .number, .integer n => .ok (Number.integer n)
  | .number, .float x => .ok (Number.float x)
  | .list, .list vs => .ok vs
  | parameter, v => .error (.wrongKind parameter v.kind)

end Parameter

/-- Accepted arguments, one for each parameter. -/
def Arguments : List Parameter → Type
  | [] => Unit
  | parameter :: rest => parameter.Carrier × Arguments rest

/-- Converts as many values as there are parameters, and stops at the first that is not accepted. -/
def Arguments.convert : (parameters : List Parameter) → (values : List Value) →
    values.length = parameters.length → Except Fault (Arguments parameters)
  | [], [], _ => .ok ()
  | parameter :: parameters, v :: values, hLength => do
    let first ← parameter.convert v
    let rest ← Arguments.convert parameters values (Nat.succ.inj hLength)
    return (first, rest)

inductive Operation where
  /-- One argument for each parameter. -/
  | typed (parameters : List Parameter) (run : Arguments parameters → Except Fault Value)
  /-- Any arguments, as long as their count is accepted. -/
  | variadic (arity : Arity) (run : List Value → Except Fault Value)

namespace Operation

def arity : Operation → Arity
  | .typed parameters _ => .exactly parameters.length
  | .variadic arity _ => arity

def call (operation : Operation) (values : List Value) : Except Fault Value :=
  match operation with
  | .typed parameters run =>
    if hLength : values.length = parameters.length then do
      run (← Arguments.convert parameters values hLength)
    else .error (.wrongCount (.exactly parameters.length) values.length)
  | .variadic arity run => do
    arity.check values.length
    run values

end Operation

end EmbeddedLisp
