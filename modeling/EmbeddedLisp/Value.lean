import EmbeddedLisp.Error
import EmbeddedLisp.Text.Quoted

/-! Values: what evaluation produces, how values are compared and how they are written. -/
namespace EmbeddedLisp

/-- A frame of bindings, by its place among all frames. -/
abbrev FrameId := Nat

/-- A procedure written in the language: its parameters, its body and the frame it was made in.
Every closure that is made has an `id` of its own. -/
structure Closure where
  id : Nat
  parameters : List String
  body : Expression
  frame : FrameId

/-- A procedure written outside of the language. -/
inductive Native where
  | builtin (procedure : Builtin)
  | host (name : String)
deriving DecidableEq

def Native.name : Native → String
  | .builtin procedure => procedure.name
  | .host name => name

inductive Procedure where
  | native (native : Native)
  | closure (closure : Closure)

/-- Native procedures are the same if their names are, and closures if they were made at once. -/
def Procedure.same : Procedure → Procedure → Bool
  | .native a, .native b => a.name == b.name
  | .closure a, .closure b => a.id == b.id
  | _, _ => false

inductive Value where
  | integer (value : Fixnum)
  | float (value : Binary64)
  | text (contents : String)
  | boolean (value : Bool)
  | list (elements : List Value)
  | procedure (procedure : Procedure)
deriving Inhabited

namespace Value

/-- The empty list. -/
def nil : Value := .list []

def kind : Value → Kind
  | .integer _ => .integer
  | .float _ => .float
  | .text _ => .text
  | .boolean _ => .boolean
  | .list _ => .list
  | .procedure _ => .procedure

/-- Everything is true except for the false boolean. -/
def isTrue : Value → Bool
  | .boolean false => false
  | _ => true

def isNumeric (v : Value) : Bool := v.kind = .integer || v.kind = .float

def isNil : Value → Bool
  | .list [] => true
  | _ => false

mutual

/-- Values of different kinds are not equal, an integer and a float among them. -/
def equal : Value → Value → Bool
  | .integer a, .integer b => a = b
  | .float x, .float y => x.numericallyEqual y
  | .text s, .text t => s = t
  | .boolean a, .boolean b => a = b
  | .list vs, .list ws => equalEach vs ws
  | .procedure p, .procedure q => p.same q
  | _, _ => false

def equalEach : List Value → List Value → Bool
  | [], [] => true
  | v :: vs, w :: ws => v.equal w && equalEach vs ws
  | _, _ => false

end

mutual

/-- A form taken as data. Text keeps its token, with the quotation marks of a string literal. -/
def ofExpression : Expression → Value
  | .integer n => .integer n
  | .float x => .float x
  | .text token => .text token
  | .boolean b => .boolean b
  | .list elements => .list (ofEach elements)

def ofEach : List Expression → List Value
  | [] => []
  | e :: rest => ofExpression e :: ofEach rest

end

mutual

/-- The text of a value. -/
def render : Value → String
  | .integer n => n.render
  | .float x => x.render
  | .text contents => contents
  | .boolean b => writeBoolean b
  | .list elements => writeList (renderEach elements)
  | .procedure (.native outside) => "#<builtin:" ++ outside.name ++ ">"
  | .procedure (.closure _) => "#<lambda>"

def renderEach : List Value → List String
  | [] => []
  | v :: rest => v.render :: renderEach rest

end

mutual

/-- The text of a value that shows its kind and, of a closure, what it does. -/
def diagnose : Value → String
  | .integer n => "Integer(" ++ n.render ++ ")"
  | .float x => "Float(" ++ x.diagnose ++ ")"
  | .text contents => "Text(" ++ Quoted.encode contents ++ ")"
  | .boolean b => "Boolean(" ++ (if b then "true" else "false") ++ ")"
  | .list elements => "List(" ++ ", ".intercalate (diagnoseEach elements) ++ ")"
  | .procedure (.native outside) => "Native(" ++ outside.name ++ ")"
  | .procedure (.closure closure) =>
    "Closure(params=" ++ Quoted.encodeList closure.parameters ++
      ", body=" ++ closure.body.render ++ ")"

def diagnoseEach : List Value → List String
  | [] => []
  | v :: rest => v.diagnose :: diagnoseEach rest

end

mutual

/-- The shape of a value: a letter for the kind of each part that is no list, in parentheses for
each list. -/
def shape : Value → String
  | .integer _ => "i"
  | .float _ => "f"
  | .text _ => "t"
  | .boolean _ => "b"
  | .list elements => "(" ++ shapeEach elements ++ ")"
  | .procedure (.native _) => "n"
  | .procedure (.closure _) => "c"

def shapeEach : List Value → String
  | [] => ""
  | v :: rest => v.shape ++ shapeEach rest

end

end Value

end EmbeddedLisp
