import EmbeddedLisp.Reader.Atom
import EmbeddedLisp.Reader.SyntaxError
import EmbeddedLisp.Reader.Token

/-! The reader turns source text into forms, one at a time. -/
namespace EmbeddedLisp

namespace Reader

structure Options where
  /-- Whether a semicolon starts a comment. Otherwise it is a character like any other. -/
  comments : Bool := false
  /-- How deeply lists may be nested, if there is a limit. -/
  maxNesting : Option Nat := none

/-- Why no form could be read. -/
inductive Failure where
  | endOfInput
  | unclosedList
  | unexpectedClose
  | tooDeep (maxNesting : Nat)
  | trailing
deriving DecidableEq

namespace Failure

def kind : Failure → SyntaxError.Kind
  | .endOfInput | .unclosedList => .incomplete
  | .unexpectedClose => .unexpectedClose
  | .tooDeep _ => .tooDeeplyNested
  | .trailing => .trailingContent

def message : Failure → String
  | .endOfInput => "Unexpected end of input"
  | .unclosedList => "Unexpected end of input: unclosed '('"
  | .unexpectedClose => "Unexpected ')'"
  | .tooDeep maxNesting =>
    "Expression too deeply nested (max depth: " ++ toString maxNesting ++ ")"
  | .trailing => "Unexpected remaining input after expression"

end Failure

/-- The limit that opening one more list inside `depth` others would exceed. -/
def exceeded? (maxNesting : Option Nat) (depth : Nat) : Option Nat :=
  maxNesting.filter (· ≤ depth)

/-- Reads one form from the front of the tokens. `unfinished` holds the lists that are open, the
innermost first, each by its elements so far, the last one first.

Beside the form stand the tokens behind it, and beside a failure the tokens from the one that caused
it on. -/
def readForm (maxNesting : Option Nat) :
    (unfinished : List (List Expression)) → (tokens : List Token) →
      Except (Failure × List Token) (Expression × List Token)
  | [], [] => .error (.endOfInput, [])
  | _ :: _, [] => .error (.unclosedList, [])
  | unfinished, .opening :: rest =>
    match exceeded? maxNesting unfinished.length with
    | some limit => .error (.tooDeep limit, .opening :: rest)
    | none => readForm maxNesting ([] :: unfinished) rest
  | [], .closing :: rest => .error (.unexpectedClose, .closing :: rest)
  | [elements], .closing :: rest => .ok (.list elements.reverse, rest)
  | elements :: outer :: unfinished, .closing :: rest =>
    readForm maxNesting ((.list elements.reverse :: outer) :: unfinished) rest
  | [], .atom text :: rest => .ok (.ofAtom text, rest)
  | elements :: unfinished, .atom text :: rest =>
    readForm maxNesting ((.ofAtom text :: elements) :: unfinished) rest

/-- A form takes up at least one token. -/
theorem readForm_shorter {maxNesting : Option Nat} {unfinished : List (List Expression)}
    {tokens rest : List Token} {e : Expression}
    (hRead : readForm maxNesting unfinished tokens = .ok (e, rest)) :
    rest.length < tokens.length := by
  fun_induction readForm maxNesting unfinished tokens with
  | case1 | case2 | case3 | case5 => cases hRead
  | case4 _ _ _ ih | case7 _ _ _ _ ih | case9 _ _ _ _ ih =>
    exact Nat.lt_succ_of_lt (ih hRead)
  | case6 | case8 =>
    cases hRead
    exact Nat.lt_succ_self _

end Reader

/-- A place in a sequence of tokens: `rest` are those at its end that have not been read. -/
structure Reader where
  maxNesting : Option Nat
  tokens : List Token
  rest : List Token

namespace Reader

def ofText (options : Options) (text : String) : Reader :=
  let tokens := Token.scan options.comments text
  ⟨options.maxNesting, tokens, tokens⟩

def isExhausted (r : Reader) : Bool := r.rest.isEmpty

/-- The number of tokens that have been read. -/
def position (r : Reader) : Nat := r.tokens.length - r.rest.length

/-- The report of a failure at the next token. -/
def errorAt (r : Reader) (failure : Failure) : SyntaxError :=
  .placed failure.kind failure.message (r.tokens.map Token.text) r.position

/-- Reads the next form. After a failure the reader stands at the token that caused it. -/
def read (r : Reader) : Except SyntaxError Expression × Reader :=
  match readForm r.maxNesting [] r.rest with
  | .ok (e, rest) => (.ok e, { r with rest })
  | .error (failure, rest) =>
    let stopped := { r with rest }
    (.error (stopped.errorAt failure), stopped)

/-- Reads the next form if there are tokens left. After a failure there are none. -/
def next? (r : Reader) : Option (Except SyntaxError Expression × Reader) :=
  if r.isExhausted then none
  else
    match r.read with
    | (.ok e, after) => some (.ok e, after)
    | (.error error, stopped) => some (.error error, { stopped with rest := [] })

theorem next?_shorter {r after : Reader} {result : Except SyntaxError Expression}
    (hNext : r.next? = some (result, after)) : after.rest.length < r.rest.length := by
  unfold next? at hNext
  split at hNext
  · cases hNext
  · rename_i hRest
    unfold read at hNext
    split at hNext
    · rename_i hRead
      split at hRead
      · rename_i hForm
        cases hRead
        cases hNext
        exact readForm_shorter hForm
      · cases hRead
    · rename_i hRead
      cases hNext
      exact List.length_pos_iff.2 (by simpa [isExhausted] using hRest)

/-- All that is left to read, form by form. Only the last entry can be an error. -/
def items (r : Reader) : List (Except SyntaxError Expression) :=
  match hNext : r.next? with
  | none => []
  | some (result, after) =>
    have := next?_shorter hNext
    result :: after.items
termination_by r.rest.length

/-- The single form of a text. -/
def parse (options : Options) (text : String) : Except SyntaxError Expression :=
  match (ofText options text).read with
  | (.error error, _) => .error error
  | (.ok e, after) => if after.isExhausted then .ok e else .error (after.errorAt .trailing)

/-- All forms of a text, or the first error. -/
def parseProgram (options : Options) (text : String) : Except SyntaxError (List Expression) :=
  (ofText options text).items.mapM id

end Reader

end EmbeddedLisp
