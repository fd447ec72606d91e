import EmbeddedLisp.Interpreter

/-! Several interpreters on one machine. They are asked one at a time, in any order, and reply with
what can be seen of them from outside. -/
namespace EmbeddedLisp

inductive Request where
  /-- A new interpreter, in place of one that is there. -/
  | create (options : Interpreter.Options)
  | source (text : String)
  | reset

inductive Reply where
  | value (text shape : String)
  | failed (error : Error)
  /-- The evaluation does not come to an end. -/
  | endless
  /-- The interpreter has been created or reset. -/
  | ready
  /-- There is no such interpreter. -/
  | absent

/-- Interpreters under their names, and the machine that they share. -/
structure Session (ι : Type) where
  interpreters : ι → Option Interpreter
  machine : Machine

namespace Session

variable {ι : Type}

/-- A machine on which there is no interpreter yet. -/
def start (machine : Machine) : Session ι := ⟨fun _ => none, machine⟩

/-- Goes on from the machine that an action has left. -/
def conclude {α : Type} (s : Session ι) (outcome : EStateM.Result Interrupt Machine α)
    (reply : α → Session ι → Reply × Session ι) : Reply × Session ι :=
  match outcome with
  | .ok x machine => reply x { s with machine }
  | .error (.error error) machine => (.failed error, { s with machine })
  | .error .outOfLevels machine => (.endless, { s with machine })

variable [DecidableEq ι]

/-- Puts an interpreter under a name. -/
def put (s : Session ι) (name : ι) (i : Interpreter) : Session ι :=
  { s with interpreters := fun other => if other = name then some i else s.interpreters other }

def respond (host : Host) (s : Session ι) (name : ι) : Request → Reply × Session ι
  | .create options =>
    s.conclude (Interpreter.create options s.machine) fun i after => (.ready, after.put name i)
  | .source text =>
    match s.interpreters name with
    | none => (.absent, s)
    | some i =>
      s.conclude (i.evalSource host text s.machine) fun v after => (.value v.render v.shape, after)
  | .reset =>
    match s.interpreters name with
    | none => (.absent, s)
    | some i => s.conclude (i.reset s.machine) fun i after => (.ready, after.put name i)

/-- The replies to requests one after another, each under the name of the interpreter. -/
def replies (host : Host) : Session ι → List (ι × Request) → List (ι × Reply)
  | _, [] => []
  | s, (name, request) :: rest =>
    (name, (s.respond host name request).1) ::
      replies host (s.respond host name request).2 rest

/-- The session after a history of requests. -/
def after (host : Host) (s : Session ι) (history : List (ι × Request)) : Session ι :=
  history.foldl (fun s (name, request) => (s.respond host name request).2) s

end Session

end EmbeddedLisp
