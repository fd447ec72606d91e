import EmbeddedLisp.Procedure.Operands

/-! Arithmetic on values. A result that no integer can hold is a fault, never another number. -/
namespace EmbeddedLisp.Arithmetic

/-- An integer, or the fault that there is none. -/
def inRange (operation : Builtin) : Option Fixnum → Except Fault Value
  | some n => .ok (.integer n)
  | none => .error (.overflow operation)

/-- Adds numbers and joins texts. -/
def add (v w : Value) : Except Fault Value := do
  match ← Operands.ofValues .add v w with
  | .integers a b => inRange .add (a.add? b)
  | .floats x y => return .float (x.add y)
  | .texts s t => return .text (s ++ t)

def subtract (v w : Value) : Except Fault Value := do
  match ← Operands.ofValues .subtract v w with
  | .integers a b => inRange .subtract (a.sub? b)
  | .floats x y => return .float (x.sub y)
  | .texts _ _ => throw (.undefinedForText .subtract)

def multiply (v w : Value) : Except Fault Value := do
  match ← Operands.ofValues .multiply v w with
  | .integers a b => inRange .multiply (a.mul? b)
  | .floats x y => return .float (x.mul y)
  | .texts _ _ => throw (.undefinedForText .multiply)

/-- The quotient of integers is rounded toward zero. Only integers cannot be divided by zero. -/
def divide (v w : Value) : Except Fault Value := do
  match ← Operands.ofValues .divide v w with
  | .integers a b =>
    if b = 0 then throw .divisionByZero
    else inRange .divide (a.quotient? b)
  | .floats x y => return .float (x.div y)
  | .texts _ _ => throw (.undefinedForText .divide)

def modulo (a b : Fixnum) : Except Fault Value :=
  if b = 0 then .error .moduloByZero else inRange .modulo (a.remainder? b)

def abs : Number → Except Fault Value
  | .integer n => inRange .abs n.abs?
  | .float x => .ok (.float x.abs)

def factorial (n : Fixnum) : Except Fault Value :=
  if n.toInt < 0 then .error (.negativeFactorial n)
  else inRange .factorial (Fixnum.factorial? n.toInt.toNat)

/-- An integer only if both numbers are. -/
def copySign : Number → Number → Except Fault Value
  | .integer magnitude, .integer sign => inRange .copysign (magnitude.copySign? sign)
  | magnitude, sign => .ok (.float (magnitude.toBinary64.copySign sign.toBinary64))

/-- A number or a text as it is, and a fault for everything else. -/
def summand : Value → Except Fault Value
  | .integer n => .ok (.integer n)
  | .float x => .ok (.float x)
  | .text s => .ok (.text s)
  | v => .error (.cannotSum v.kind)

/-- Adds the elements of a list from left to right. The sum of none is zero. -/
def sum : List Value → Except Fault Value
  | [] => .ok (.integer 0)
  | first :: rest => do
    rest.foldlM (fun total v => do add total (← summand v)) (← summand first)

end EmbeddedLisp.Arithmetic
