import EmbeddedLisp.Evaluation.Event
import EmbeddedLisp.Scope.Store

/-! The state that evaluations work on, and the actions on it. An action that fails keeps what was
done before. -/
namespace EmbeddedLisp

/-- The frames of the program and the log, of which the latest event is first. -/
structure Machine where
  store : Store
  events : List Event

def Machine.empty : Machine := ⟨.empty, []⟩

instance : Inhabited Machine := ⟨.empty⟩

/-- Why an action does not come to an end of its own: an error, or an evaluation that is nested more
deeply than it was given levels for. -/
inductive Interrupt where
  | error (error : Error)
  | outOfLevels

abbrev Action := EStateM Interrupt Machine

namespace Action

variable {α : Type}

def fail (error : Error) : Action α := throw (.error error)

/-- Rejects what a procedure or a form was given. -/
def reject (fault : Fault) : Action α := fail (.rejected fault none)

/-- Changes the error that an action fails with. -/
def mapError (f : Error → Error) (action : Action α) : Action α :=
  action.adaptExcept fun
    | .error error => .error (f error)
    | .outOfLevels => .outOfLevels

/-- A fault becomes an error that does not name a form yet. -/
def ofExcept : Except Fault α → Action α
  | .ok a => pure a
  | .error fault => reject fault

/-- Adds an event to the log, of which the last one comes first. -/
def record (event : Event) : Action Unit :=
  modify fun m => { m with events := event :: m.events }

def modifyStore (f : Store → Store) : Action Unit :=
  modify fun m => { m with store := f m.store }

/-- What a name is bound to. It is an error if it is not bound. -/
def lookup (frame : FrameId) (name : String) : Action Value := do
  match (← get).store.lookup? frame name with
  | some v => return v
  | none => fail (.unbound name)

def define (frame : FrameId) (name : String) (v : Value) : Action Unit :=
  modifyStore (·.define frame name v)

/-- Changes the binding that `lookup` finds. There has to be one. -/
def assign (frame : FrameId) (name : String) (v : Value) : Action Unit := do
  match (← get).store.owner? frame name with
  | some owner => define owner name v
  | none => fail (.unbound name)

/-- Makes a frame. Of entries with the same name the last one counts. -/
def addFrame (entries : List (String × Value)) (parent : Option FrameId) : Action FrameId :=
  modifyGet fun m =>
    let (id, store) := m.store.addFrame (.ofList entries) parent
    (id, { m with store })

/-- Makes a closure in a frame. -/
def addClosure (parameters : List String) (body : Expression) (frame : FrameId) : Action Value :=
  modifyGet fun m =>
    let id := m.store.closures
    (.procedure (.closure ⟨id, parameters, body, frame⟩),
      { m with store := { m.store with closures := id + 1 } })

end Action

end EmbeddedLisp
