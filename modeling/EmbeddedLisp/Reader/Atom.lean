import EmbeddedLisp.Expression

/-! What an atom stands for. -/
namespace EmbeddedLisp.Expression

/-- Numbers that are written without a digit, and the two truth values. -/
def reserved? (token : String) : Option Expression :=
  if token = "inf" then some (.float .infinity)
  else if token = "-inf" then some (.float (.signed true .infinity))
  else if token = "NaN" then some (.float (.nan false))
  else if token = "#t" then some (.boolean true)
  else if token = "#f" then some (.boolean false)
  else none

/-- A whole number is an integer as long as it fits and a float otherwise. What is neither a number
nor a reserved word is text. -/
def ofAtom (token : String) : Expression :=
  match (Decimal.integer? token.toList).bind Fixnum.ofInt? with
  | some n => .integer n
  | none =>
    match Binary64.ofText? token.toList with
    | some x => .float x
    | none => (reserved? token).getD (.text token)

end EmbeddedLisp.Expression
