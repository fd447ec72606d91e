import EmbeddedLisp.Interpreter.Options
import EmbeddedLisp.Value

/-! What is logged. -/
namespace EmbeddedLisp

inductive Event where
  | creatingInterpreter (options : Interpreter.Options)
  | resetting
  | createdGlobalFrame (builtins constants : Nat)
  | registering (name : String)
  | defining (name : String) (value : Value)
  | assigned (name : String) (value : Value)
  | applying (parameters : List String) (arguments : Nat)

/-- The line of the log: its level and its message. -/
def Event.render : Event → String
  | .creatingInterpreter options => "DEBUG creating interpreter with " ++ options.diagnose
  | .resetting => "DEBUG resetting interpreter environment"
  | .createdGlobalFrame builtins constants =>
    "DEBUG created global environment with " ++ toString builtins ++ " builtins and " ++
      toString constants ++ " constants"
  | .registering name => "DEBUG registering builtin `" ++ name ++ "`"
  | .defining name value => "DEBUG define " ++ name ++ " = " ++ value.render
  | .assigned name value => "DEBUG set! " ++ name ++ " = " ++ value.render
  | .applying parameters arguments =>
    "TRACE applying closure (" ++ " ".intercalate parameters ++ ") to " ++ toString arguments ++
      " args"

end EmbeddedLisp
