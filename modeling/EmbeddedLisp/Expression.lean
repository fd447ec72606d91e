import EmbeddedLisp.Number.Decimal.Notation
import EmbeddedLisp.Number.Fixnum

/-! Source forms: atoms and nested lists, and their text. The text of a form that was read is read
back as the same form. -/
namespace EmbeddedLisp

/-- A form is an atom or a list of forms. A text atom keeps its token as it was written. It is a
string literal if it is enclosed in double quotes, and a symbol otherwise. -/
inductive Expression where
  | integer (value : Fixnum)
  | float (value : Binary64)
  | text (token : String)
  | boolean (value : Bool)
  | list (elements : List Expression)
deriving Inhabited

/-- The contents of a string literal. A single quote mark does not open and close one. -/
def literalContents? (token : String) : Option String :=
  match token.toList with
  | '"' :: rest =>
    if rest.getLast? = some '"' then some (String.ofList rest.dropLast) else none
  | _ => none

/-- The elements of a list, written between parentheses with single spaces. -/
def writeList (elements : List String) : String := "(" ++ " ".intercalate elements ++ ")"

def writeBoolean (value : Bool) : String := if value then "#t" else "#f"

namespace Expression

/-- The name, if the form is a symbol. -/
def symbol? : Expression → Option String
  | .text token => if (literalContents? token).isSome then none else some token
  | _ => none

theorem symbol?_eq_some_iff {e : Expression} {name : String} :
    e.symbol? = some name ↔ e = .text name ∧ literalContents? name = none := by
  cases e with
  | text token =>
    cases hContents : literalContents? token with
    | none =>
      constructor
      · rintro hSymbol
        simp only [symbol?, hContents, Option.isSome_none, Bool.false_eq_true, if_false,
          Option.some.injEq] at hSymbol
        exact hSymbol ▸ ⟨rfl, hContents⟩
      · rintro ⟨hText, -⟩
        cases hText
        simp [symbol?, hContents]
    | some contents =>
      simp only [symbol?, hContents, Option.isSome_some, if_true, reduceCtorEq, false_iff, not_and]
      rintro hText
      cases hText
      simp [hContents]
  | _ => simp [symbol?]

/-- The empty list. -/
def nil : Expression := .list []

def isNil : Expression → Bool
  | .list [] => true
  | _ => false

mutual

/-- The text of a form. -/
def render : Expression → String
  | .integer value => value.render
  | .float value => value.render
  | .text token => token
  | .boolean value => writeBoolean value
  | .list elements => writeList (renderEach elements)

def renderEach : List Expression → List String
  | [] => []
  | e :: rest => e.render :: renderEach rest

end

mutual

/-- The shape of a form: a letter for each atom, in parentheses for each list. -/
def shape : Expression → String
  | .integer _ => "i"
  | .float _ => "f"
  | .text token => if (literalContents? token).isSome then "q" else "s"
  | .boolean _ => "b"
  | .list elements => "(" ++ shapeEach elements ++ ")"

def shapeEach : List Expression → String
  | [] => ""
  | e :: rest => e.shape ++ shapeEach rest

end

end Expression

end EmbeddedLisp
