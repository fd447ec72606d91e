/-! Reports of text that is no form: what is wrong, the token that was found, and the tokens around
it. -/
namespace EmbeddedLisp

namespace SyntaxError

inductive Kind where
  | incomplete
  | unexpectedClose
  | trailingContent
  | tooDeeplyNested
  | unrecognizedInput
deriving DecidableEq

/-- The number of tokens shown on either side. -/
def reach : Nat := 5

/-- The number of characters of the tokens shown. -/
def snippetLength : Nat := 100

/-- The tokens around a position, cut off after `snippetLength` characters, with a mark on each side
where tokens are left out. There is nothing to show far behind the last token. -/
def snippet (tokens : List String) (position : Nat) : String :=
  let start := position - reach
  let stop := min (position + reach) tokens.length
  let shown := " ".intercalate ((tokens.take stop).drop start)
  (if 0 < start then "[...] " else "") ++
    String.ofList (shown.toList.take snippetLength) ++
    (if stop < tokens.length then " [...]" else "")

end SyntaxError

structure SyntaxError where
  kind : SyntaxError.Kind
  message : String
  context : Option String
  found : Option String
deriving DecidableEq

namespace SyntaxError

/-- A report without a place. -/
def unplaced (kind : Kind) (message : String) : SyntaxError := ⟨kind, message, none, none⟩

/-- A report about the token at a position, which is past the end if the tokens are too few. -/
def placed (kind : Kind) (message : String) (tokens : List String) (position : Nat) :
    SyntaxError :=
  ⟨kind, message, some (snippet tokens position), tokens[position]?⟩

/-- The message, and a line each for what is known of the place. -/
def render (e : SyntaxError) : String :=
  let line (label : String) : Option String → String
    | some text => "\n" ++ label ++ ": " ++ text
    | none => ""
  e.message ++ line "Found" e.found ++ line "Context" e.context

end SyntaxError

end EmbeddedLisp
