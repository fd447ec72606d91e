/-! How many arguments a procedure or a form takes. -/
namespace EmbeddedLisp

inductive Arity where
  | exactly (count : Nat)
  | atLeast (least : Nat)
  /-- Both bounds are allowed. -/
  | between (least greatest : Nat)
  | any
deriving DecidableEq

namespace Arity

def accepts (arity : Arity) (count : Nat) : Bool :=
  match arity with
  | .exactly n => count = n
  | .atLeast least => least ≤ count
  | .between least greatest => least ≤ count && count ≤ greatest
  | .any => true

/-- The words that stand before "arguments". -/
def render : Arity → String
  | .exactly n => toString n
  | .atLeast least => "at least " ++ toString least
  | .between least greatest => toString least ++ " to " ++ toString greatest
  | .any => "any number of"

/-- The text of an arity in a description of its procedure. -/
def diagnose : Arity → String
  | .exactly n => "Exact(" ++ toString n ++ ")"
  | .atLeast least => "AtLeast(" ++ toString least ++ ")"
  | .between least greatest => "Range(" ++ toString least ++ ", " ++ toString greatest ++ ")"
  | .any => "Any"

end Arity

end EmbeddedLisp
