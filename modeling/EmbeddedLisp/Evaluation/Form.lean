import EmbeddedLisp.Evaluation.Machine
import EmbeddedLisp.Procedure.Keyword

/-! Special forms. Each is an action over an evaluator for the forms inside of it, so what it
evaluates, in which order and in which frame can be read off here. -/
namespace EmbeddedLisp

/-- Evaluates a form in a frame. -/
abbrev Evaluator := Expression → FrameId → Action Value

namespace Form

open EmbeddedLisp.Action

/-- The name that a form has to give in this place. -/
def expectSymbol (binder : Binder) (e : Expression) : Action String :=
  match e.symbol? with
  | some name => pure name
  | none => reject (.notSymbol binder e)

/-- Several forms of a body are taken as one that evaluates them in turn. -/
def joinBody : List Expression → Expression
  | [e] => e
  | forms => .list (.text Keyword.sequence.name :: forms)

/-- Names that may not be repeated, after those already there. -/
def parameterNames (names : List String) : List Expression → Action (List String)
  | [] => pure names
  | e :: rest => do
    let name ← expectSymbol .parameter e
    if names.contains name then reject (.duplicateParameter name)
    else parameterNames (names ++ [name]) rest

def makeClosure (parameters body : List Expression) (frame : FrameId) : Action Value := do
  let names ← parameterNames [] parameters
  addClosure names (joinBody body) frame

variable (evaluate : Evaluator) (frame : FrameId)

/-- Evaluates forms in turn, for the value of the last one. -/
def evaluateBody (forms : List Expression) : Action Value :=
  forms.foldlM (fun _ e => evaluate e frame) .nil

/-- Evaluates forms in turn up to the first whose value is as true as `decisive`. -/
def evaluateUntil (decisive : Bool) : (latest : Value) → List Expression → Action Value
  | latest, [] => pure latest
  | _, e :: rest => do
    let v ← evaluate e frame
    if v.isTrue = decisive then return v
    else evaluateUntil decisive v rest

/-- What the initial forms of new names evaluate to, after the entries already there. A fault in a
binding stops the evaluation of those behind it. -/
def evaluateBindings (entries : List (String × Value)) :
    List Expression → Action (List (String × Value))
  | [] => pure entries
  | .list [target, e] :: rest => do
    let name ← expectSymbol .binding target
    if entries.any (·.1 = name) then reject (.duplicateBinding name)
    else
      let v ← evaluate e frame
      evaluateBindings (entries ++ [(name, v)]) rest
  | binding :: _ => reject (.malformedBinding binding)

/-- Binds a name in the frame that the definition stands in. -/
def bindDefinition (name : String) (v : Value) : Action Value := do
  record (.defining name v)
  define frame name v
  return v

/-- Defines what a form evaluates to or, under a list of a name and parameters, a procedure. -/
def evaluateDefinition : (target : Expression) → (body : List Expression) → Action Value
  | .list [], _ => reject .namelessDefinition
  | .list (target :: parameters), body => do
    let name ← expectSymbol .definition target
    bindDefinition frame name (← makeClosure parameters body frame)
  | target, [e] => do
    let name ← expectSymbol .definition target
    bindDefinition frame name (← evaluate e frame)
  | _, _ => reject .malformedDefinition

/-- Evaluates the form of a keyword from the parts that follow the word. -/
def evaluateForm : Keyword → List Expression → Action Value
  | .quote, [e] => pure (.ofExpression e)
  | .branch, [test, consequent, alternative] => do
    let v ← evaluate test frame
    evaluate (if v.isTrue then consequent else alternative) frame
  | .define, target :: e :: rest => evaluateDefinition evaluate frame target (e :: rest)
  | .assign, [target, e] => do
    let name ← expectSymbol .assignment target
    let v ← evaluate e frame
    assign frame name v
    record (.assigned name v)
    return v
  | .lambda, .list parameters :: e :: rest => makeClosure parameters (e :: rest) frame
  | .lambda, _ :: _ :: _ => reject .parametersNotList
  | .sequence, forms => evaluateBody evaluate frame forms
  | .bind, .list bindings :: e :: rest => do
    let entries ← evaluateBindings evaluate frame [] bindings
    let inner ← addFrame entries (some frame)
    evaluateBody evaluate inner (e :: rest)
  | .bind, _ :: _ :: _ => reject .bindingsNotList
  | .conjunction, forms => evaluateUntil evaluate frame false (.boolean true) forms
  | .disjunction, forms => evaluateUntil evaluate frame true (.boolean false) forms
  | keyword, parts => reject (.wrongCount keyword.arity parts.length)

end Form

end EmbeddedLisp
