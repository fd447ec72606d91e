import EmbeddedLisp.Reader

/-! The settings of an interpreter. -/
namespace EmbeddedLisp.Interpreter

/-- What an interpreter is created with, and keeps when it is reset. -/
structure Options where
  reading : Reader.Options := {}
  /-- How deeply evaluations may be nested, if there is a limit. -/
  maxDepth : Option Nat := none

namespace Options

def diagnoseLimit : Option Nat → String
  | some limit => "Some(" ++ toString limit ++ ")"
  | none => "None"

/-- The text of the settings in the log. -/
def diagnose (options : Options) : String :=
  "InterpreterConfig \x7b parse: ParseConfig \x7b handle_comments: " ++
    (if options.reading.comments then "true" else "false") ++
    ", max_depth: " ++ diagnoseLimit options.reading.maxNesting ++
    " \x7d, max_eval_depth: " ++ diagnoseLimit options.maxDepth ++ " \x7d"

end Options

end EmbeddedLisp.Interpreter
