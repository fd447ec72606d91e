import EmbeddedLisp.Procedure.Arity

/-! The words that head a special form. A form decides itself which of its parts are evaluated, and
its word is recognized before any binding of the same name is looked up. -/
namespace EmbeddedLisp

inductive Keyword where
  | quote
  | branch
  | define
  | assign
  | lambda
  | sequence
  | bind
  | conjunction
  | disjunction
deriving DecidableEq

namespace Keyword

def all : List Keyword :=
  [.quote, .branch, .define, .assign, .lambda, .sequence, .bind, .conjunction, .disjunction]

/-- The word that heads the form. -/
def name : Keyword → String
  | .quote => "quote"
  | .branch => "if"
  | .define => "define"
  | .assign => "set!"
  | .lambda => "lambda"
  | .sequence => "begin"
  | .bind => "let"
  | .conjunction => "and"
  | .disjunction => "or"

/-- How many operands the form takes. A body has one expression or more. -/
def arity : Keyword → Arity
  | .quote => .exactly 1
  | .branch => .exactly 3
  | .define | .lambda | .bind => .atLeast 2
  | .assign => .exactly 2
  | .sequence | .conjunction | .disjunction => .any

def ofName? (name : String) : Option Keyword := all.find? (·.name = name)

/-- Each form has a word of its own. -/
theorem ofName?_eq_some_iff {word : String} {keyword : Keyword} :
    ofName? word = some keyword ↔ keyword.name = word := by
  constructor
  · intro h
    simpa using List.find?_some h
  · rintro rfl
    cases keyword <;> rfl

end Keyword

end EmbeddedLisp
