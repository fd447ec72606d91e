import EmbeddedLisp.Expression
import EmbeddedLisp.Kind
import EmbeddedLisp.Procedure.Arity
import EmbeddedLisp.Procedure.Builtin
import EmbeddedLisp.Reader.SyntaxError
import EmbeddedLisp.Text.Occurrence

/-! What can go wrong, by cause, and the words for it. -/
namespace EmbeddedLisp

/-- The places of a form where only a symbol can stand. -/
inductive Binder where
  | parameter
  | definition
  | assignment
  | binding
deriving DecidableEq

def Binder.name : Binder → String
  | .parameter => "lambda parameter"
  | .definition => "define"
  | .assignment => "set!"
  | .binding => "let"

/-- Why a procedure or a form rejects what it is given. -/
inductive Fault where
  | wrongCount (expected : Arity) (given : Nat)
  | wrongKind (expected : Parameter) (given : Kind)
  | notProcedure (given : Kind)
  | cannotCombine (operator : Builtin) (left right : Kind)
  | undefinedForText (operator : Builtin)
  | overflow (operation : Builtin)
  | divisionByZero
  | moduloByZero
  | negativeFactorial (given : Fixnum)
  | firstOfEmpty
  | restOfEmpty
  | cannotSum (given : Kind)
  | notSymbol (binder : Binder) (given : Expression)
  | duplicateParameter (name : String)
  | duplicateBinding (name : String)
  | namelessDefinition
  | malformedDefinition
  | parametersNotList
  | bindingsNotList
  | malformedBinding (given : Expression)
  /-- A host procedure gives its reasons in words of its own. -/
  | reported (reason : String)

def Fault.message : Fault → String
  | .wrongCount expected given =>
    "expected " ++ expected.render ++ " arguments, got " ++ toString given
  | .wrongKind expected given => "expected " ++ expected.name ++ ", got " ++ given.name
  | .notProcedure given => given.name ++ " is not a procedure"
  | .cannotCombine operator left right =>
    "'" ++ operator.name ++ "' cannot combine " ++ left.name ++ " with " ++ right.name
  | .undefinedForText operator => "'" ++ operator.name ++ "' is not defined for text"
  | .overflow operation => "integer overflow in " ++ operation.activity
  | .divisionByZero => "integer division by zero"
  | .moduloByZero => "integer modulo by zero"
  | .negativeFactorial given => "factorial of negative number " ++ given.render
  | .firstOfEmpty => "car of empty list"
  | .restOfEmpty => "cdr of empty list"
  | .cannotSum given => "fsum cannot add " ++ given.name
  | .notSymbol binder given => binder.name ++ " requires a symbol, got " ++ given.render
  | .duplicateParameter name => "duplicate lambda parameter: " ++ name
  | .duplicateBinding name => "duplicate let binding: " ++ name
  | .namelessDefinition => "define requires a procedure name"
  | .malformedDefinition => "define requires a symbol and exactly one expression"
  | .parametersNotList => "lambda parameters must be a list"
  | .bindingsNotList => "let bindings must be a list"
  | .malformedBinding given => "let binding must be (name expr), got " ++ given.render
  | .reported reason => reason

inductive Error where
  | reading (error : SyntaxError)
  /-- There is no binding to look up, or none to change. -/
  | unbound (name : String)
  /-- Something was rejected, in the evaluation of a list if it is known. -/
  | rejected (fault : Fault) (form : Option Expression)
  | tooDeep (limit : Nat)

namespace Error

/-- What stands between the reason for a rejection and the list that was evaluated. -/
def formMark : String := "\n  while evaluating: "

def message : Error → String
  | .reading error => "SyntaxError: " ++ error.render
  | .unbound name => "Unbound symbol: " ++ name
  | .rejected fault form =>
    let place := match form with
      | some e => formMark ++ e.render
      | none => ""
    "InvalidProcedureInput: " ++ fault.message ++ place
  | .tooDeep limit => "Evaluation depth limit exceeded (max: " ++ toString limit ++ ")"

/-- Names the list that was evaluated, unless a list inside of it has been named or the reason
itself names one. -/
def inForm (e : Expression) : Error → Error
  | .rejected fault none =>
    if occursIn formMark.toList fault.message.toList then .rejected fault none
    else .rejected fault (some e)
  | error => error

end Error

end EmbeddedLisp
