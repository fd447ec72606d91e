import EmbeddedLisp.Reader.SyntaxError
import EmbeddedLisp.Text.Blank

/-! Taking a text apart with scanners that are put together from smaller ones, by means of a library
that is left open here. Blanks and comments are skipped before each token and once more behind the
last one, and nothing may be left over in the end. -/
namespace EmbeddedLisp

/-- Why a scanner takes nothing, with what it was at. After an error, but not after a failure, there
may be another scanner to try. -/
inductive Halt where
  | error (rest : List Char)
  | failure (rest : List Char)
  | incomplete

/-- What is taken off the front of a text, and what is left of it. -/
abbrev Scanner (α : Type) := List Char → Except Halt (α × List Char)

/-- A library of scanners, and of ways to put scanners together. -/
structure Combinators where
  tag : String → Scanner String
  char : Char → Scanner Char
  takeWhile : (Char → Bool) → Scanner String
  takeWhile1 : (Char → Bool) → Scanner String
  takeTill : (Char → Bool) → Scanner String
  alt : {α : Type} → List (Scanner α) → Scanner α
  preceded : {α β : Type} → Scanner α → Scanner β → Scanner β
  terminated : {α β : Type} → Scanner α → Scanner β → Scanner α
  value : {α β : Type} → β → Scanner α → Scanner β
  many0 : {α : Type} → Scanner α → Scanner (List α)
  allConsuming : {α : Type} → Scanner α → Scanner α

namespace Combinators

def isAtomCharacter (comments : Bool) (a : Char) : Bool :=
  !isBlank a && a != '(' && a != ')' && !(comments && a == ';')

def isLineEnd (a : Char) : Bool := a == '\n' || a == '\r'

variable (c : Combinators) (comments : Bool)

/-- A comment, up to the end of its line. -/
def comment : Scanner String := c.preceded (c.char ';') (c.takeTill isLineEnd)

/-- Blanks, and comments in a text that has them. -/
def skip : Scanner Unit :=
  if comments then c.value () (c.many0 (c.alt [c.takeWhile1 isBlank, c.comment]))
  else c.value () (c.takeWhile isBlank)

def token : Scanner String := c.alt [c.tag "(", c.tag ")", c.takeWhile1 (isAtomCharacter comments)]

def tokens : Scanner (List String) :=
  c.allConsuming
    (c.terminated (c.many0 (c.preceded (c.skip comments) (c.token comments))) (c.skip comments))

/-- The error for a text that is not taken apart. Its place is counted in bytes, and it shows ten
characters of what is left. -/
def unrecognized (text : String) (halt : Halt) : SyntaxError :=
  let rest := match halt with
    | .error rest | .failure rest => rest
    | .incomplete => []
  { kind := .unrecognizedInput
    message := "Unrecognized input at position " ++
      toString (text.utf8ByteSize - (String.ofList rest).utf8ByteSize)
    context := none
    found := some (String.ofList (rest.take 10)) }

def tokenize (text : String) : Except SyntaxError (List String) :=
  match c.tokens comments text.toList with
  | .ok (tokens, _) => .ok tokens
  | .error halt => .error (unrecognized text halt)

end Combinators

end EmbeddedLisp
