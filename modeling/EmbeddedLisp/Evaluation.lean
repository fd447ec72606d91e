import EmbeddedLisp.Evaluation.Form
import EmbeddedLisp.Host
import EmbeddedLisp.Procedure.Library

/-! Evaluation of forms. A form is evaluated at a level, and the forms inside of it and the bodies
of the closures it calls one level below. `eval` is given the number of levels and is interrupted
when they do not suffice. -/
namespace EmbeddedLisp

namespace Evaluation

open EmbeddedLisp.Action

/-- How native procedures are called, with arguments and from a frame. -/
abbrev Caller := Native → List Value → FrameId → Action Value

/-- Calls a native procedure, one of the host by means of what the host has under its name. -/
def callNative (host : Host) : Caller := fun native arguments frame =>
  match native with
  | .builtin procedure => ofExcept (procedure.operation.call arguments)
  | .host name => do
    match host.procedure? name with
    | none => fail (.unbound name)
    | some procedure =>
      let answer ← ofExcept (procedure.run arguments ((← get).store.bindings frame).binds)
      answer.definitions.forM fun (name, v) => define frame name v
      return answer.value

/-- A host says how native procedures are called. -/
instance : Coe Host Caller := ⟨callNative⟩

/-- Calls a closure: its body is evaluated in a new frame that binds the parameters, below the frame
that the closure was made in. -/
def callClosure (evaluate : Evaluator) (closure : Closure) (arguments : List Value) :
    Action Value := do
  if closure.parameters.length = arguments.length then
    record (.applying closure.parameters arguments.length)
    let inner ← addFrame (closure.parameters.zip arguments) (some closure.frame)
    evaluate closure.body inner
  else reject (.wrongCount (.exactly closure.parameters.length) arguments.length)

/-- Applies a value to arguments from a frame. What is no procedure stands for itself if there are
no arguments. -/
def applyWith (caller : Caller) (evaluate : Evaluator) (v : Value) (arguments : List Value)
    (frame : FrameId) : Action Value :=
  match v with
  | .procedure (.native native) => caller native arguments frame
  | .procedure (.closure closure) => callClosure evaluate closure arguments
  | v => if arguments.isEmpty then pure v else reject (.notProcedure v.kind)

/-- Evaluates a list that is not empty: as a special form if its head is a keyword, and else by
applying the value of the head to the values of the other elements, which are evaluated from left to
right. -/
def evaluateList (caller : Caller) (evaluate : Evaluator) (head : Expression)
    (rest : List Expression) (frame : FrameId) : Action Value :=
  match head.symbol?.bind Keyword.ofName? with
  | some keyword => Form.evaluateForm evaluate frame keyword rest
  | none => do
    let v ← evaluate head frame
    let arguments ← rest.mapM (evaluate · frame)
    applyWith caller evaluate v arguments frame

/-- Evaluates a form by means of an evaluator for the level below. -/
def step (caller : Caller) (evaluate : Evaluator) : Evaluator
  | .integer n, _ => pure (.integer n)
  | .float x, _ => pure (.float x)
  | .boolean b, _ => pure (.boolean b)
  | .text token, frame =>
    match literalContents? token with
    | some contents => pure (.text contents)
    | none => lookup frame token
  | .list [], _ => pure .nil
  | .list (head :: rest), frame =>
    mapError (Error.inForm (.list (head :: rest))) (evaluateList caller evaluate head rest frame)

/-- Evaluates a form with a number of levels. -/
def eval (caller : Caller) : (levels : Nat) → Evaluator
  | 0 => fun _ _ => throw .outOfLevels
  | levels + 1 => step caller (eval caller levels)

/-- Applies a value with a number of levels for the body of a closure. -/
def apply (caller : Caller) (levels : Nat) (v : Value) (arguments : List Value) (frame : FrameId) :
    Action Value :=
  applyWith caller (eval caller levels) v arguments frame

/-- Evaluates a form within a limit of depth: it is an error if a form at a depth beyond the limit
would have to be evaluated, the outermost form being at depth zero. -/
def evalWithin (caller : Caller) (limit : Nat) : Evaluator := fun e frame =>
  (eval caller (limit + 1) e frame).adaptExcept fun
    | .outOfLevels => .error (.tooDeep limit)
    | interrupt => interrupt

/-- More levels than a computer has room for. -/
def ampleLevels : Nat := 1000000000000

section

variable (caller : Caller) (e : Expression) (frame : FrameId) (m : Machine)

/-- Evaluates a form with some levels, and again with more of them as long as they do not
suffice. -/
def evalFrom (levels : Nat) : Option (EStateM.Result Interrupt Machine Value) :=
  match eval caller levels e frame m with
  | .error .outOfLevels _ => by
    -- Written as a term, the recursion would keep its place in the source text.
    apply evalFrom
    exact levels + ampleLevels
  | outcome => some outcome
partial_fixpoint

end

/-- Evaluates a form without a limit of depth. Where no number of levels suffices this does not come
to an end, and counts as being out of levels. -/
def evalUnlimited (caller : Caller) : Evaluator := fun e frame m =>
  (evalFrom caller e frame m ampleLevels).getD (.error .outOfLevels m)

/-- Applies a value without a limit of depth for the body of a closure. -/
def applyUnlimited (caller : Caller) (v : Value) (arguments : List Value) (frame : FrameId) :
    Action Value :=
  applyWith caller (evalUnlimited caller) v arguments frame

end Evaluation

end EmbeddedLisp
