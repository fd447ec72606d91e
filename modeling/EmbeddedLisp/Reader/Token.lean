import EmbeddedLisp.Text.Blank

/-! Tokens of source text: parentheses, and longest runs of characters that are neither parentheses
nor blank. In text with comments a semicolon starts one, also in the middle of a run, and the
comment goes on to the end of the line. -/
namespace EmbeddedLisp

inductive Token where
  | opening
  | closing
  | atom (text : String)
deriving DecidableEq

namespace Token

def text : Token → String
  | .opening => "("
  | .closing => ")"
  | .atom text => text

/-- What a character does outside of comments. -/
inductive Role where
  | blank
  | opening
  | closing
  | comment
  | ordinary
deriving DecidableEq

def roleOf (comments : Bool) (c : Char) : Role :=
  if c = '(' then .opening
  else if c = ')' then .closing
  else if isBlank c then .blank
  else if comments && c = ';' then .comment
  else .ordinary

/-- Where a scan stands: behind the characters of an unfinished atom, of which the last is first and
there may be none, or inside a comment. -/
inductive Position where
  | word (reversed : List Char)
  | comment

/-- Puts the unfinished atom before the tokens that follow it, if there is one. -/
def finish (reversed : List Char) (rest : List Token) : List Token :=
  if reversed = [] then rest else .atom (String.ofList reversed.reverse) :: rest

def scanFrom (comments : Bool) : Position → List Char → List Token
  | .word reversed, [] => finish reversed []
  | .word reversed, c :: rest =>
    match roleOf comments c with
    | .blank => finish reversed (scanFrom comments (.word []) rest)
    | .opening => finish reversed (.opening :: scanFrom comments (.word []) rest)
    | .closing => finish reversed (.closing :: scanFrom comments (.word []) rest)
    | .comment => finish reversed (scanFrom comments .comment rest)
    | .ordinary => scanFrom comments (.word (c :: reversed)) rest
  | .comment, [] => []
  | .comment, c :: rest =>
    if c = '\n' ∨ c = '\r' then scanFrom comments (.word []) rest
    else scanFrom comments .comment rest

/-- The tokens of a text. Every text has them: there is no character that a scan refuses. -/
def scan (comments : Bool) (text : String) : List Token :=
  scanFrom comments (.word []) text.toList

end Token

end EmbeddedLisp
