import EmbeddedLisp.Evaluation

/-! Interpreters: a global frame of their own, and settings. -/
namespace EmbeddedLisp

structure Interpreter where
  options : Interpreter.Options
  globalFrame : FrameId

namespace Interpreter

open EmbeddedLisp.Action

/-- The ratio of the circumference of a circle to its diameter. -/
def pi : Binary64 := .ofBits 0x400921fb54442d18

/-- The base of the natural logarithm. -/
def euler : Binary64 := .ofBits 0x4005bf0a8b145769

/-- The numbers that have names. -/
def constants : List (String × Value) :=
  [("pi", .float pi), ("π", .float pi), ("e", .float euler), ("𝑒", .float euler),
    ("inf", .float .infinity)]

def builtins : List (String × Value) :=
  Builtin.all.map fun procedure => (procedure.name, .procedure (.native (.builtin procedure)))

theorem global_cases {entry : String × Value} (hMem : entry ∈ constants ++ builtins) :
    (∃ x, entry.2 = .float x) ∨
      ∃ procedure, entry.2 = .procedure (.native (.builtin procedure)) := by
  rcases List.mem_append.1 hMem with hConstant | hBuiltin
  · left
    simp only [constants, List.mem_cons, List.not_mem_nil, or_false] at hConstant
    rcases hConstant with rfl | rfl | rfl | rfl | rfl <;> exact ⟨_, rfl⟩
  · obtain ⟨procedure, -, rfl⟩ := List.mem_map.1 hBuiltin
    exact .inr ⟨procedure, rfl⟩

/-- Makes a frame without a parent that binds the constants and the builtin procedures. -/
def makeGlobalFrame : Action FrameId := do
  let frame ← addFrame (constants ++ builtins) none
  record (.createdGlobalFrame builtins.length constants.length)
  return frame

/-- Binds the procedures of the host in a frame, under their names. -/
def install (host : Host) (frame : FrameId) : Action Unit :=
  host.forM fun procedure => do
    record (.registering procedure.name)
    define frame procedure.name (.procedure (.native (.host procedure.name)))

def create (options : Options) : Action Interpreter := do
  record (.creatingInterpreter options)
  return { options, globalFrame := ← makeGlobalFrame }

/-- Starts over with a new global frame. Whatever still refers to the old one keeps it. -/
def reset (i : Interpreter) : Action Interpreter := do
  record .resetting
  return { i with globalFrame := ← makeGlobalFrame }

section

open Evaluation (Caller)

/-- Evaluates a form in a frame, within a limit of depth if there is one. -/
def evaluateBy (caller : Caller) : (limit : Option Nat) → Evaluator
  | some limit => Evaluation.evalWithin caller limit
  | none => Evaluation.evalUnlimited caller

def evaluate (host : Host) : (limit : Option Nat) → Evaluator := evaluateBy host

/-- Evaluates a form in the global frame, within the limit of the settings. -/
def evalBy (i : Interpreter) (caller : Caller) (e : Expression) : Action Value :=
  evaluateBy caller i.options.maxDepth e i.globalFrame

def eval (i : Interpreter) (host : Host) : Expression → Action Value := i.evalBy host

/-- Reads and evaluates the forms of a text one after another, for the value of the last one. The
first error ends it, and what was evaluated before keeps its effects. -/
def evalSourceBy (i : Interpreter) (caller : Caller) (text : String) : Action Value :=
  (Reader.ofText i.options.reading text).items.foldlM
    (fun _ item =>
      match item with
      | .ok e => i.evalBy caller e
      | .error error => fail (.reading error))
    .nil

def evalSource (i : Interpreter) (host : Host) : (text : String) → Action Value :=
  i.evalSourceBy host

end

end Interpreter

end EmbeddedLisp
