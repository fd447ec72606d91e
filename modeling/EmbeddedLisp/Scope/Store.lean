import EmbeddedLisp.Scope.Bindings
import EmbeddedLisp.Value

/-! The frames of a program. A frame binds names and may have a parent, which was there before it.
Names are looked up in a frame, then in its parent, and so on: along its chain. -/
namespace EmbeddedLisp

structure Frame where
  bindings : Bindings Value
  parent : Option FrameId

/-- All frames in the order they were made in, and the number of closures made so far. -/
structure Store where
  frames : Array Frame
  closures : Nat

namespace Store

def empty : Store := ⟨#[], 0⟩

instance : Inhabited Store := ⟨empty⟩

/-- What a frame itself binds. -/
def bindings (s : Store) (id : FrameId) : Bindings Value :=
  match s.frames[id]? with
  | some frame => frame.bindings
  | none => .empty

def parent? (s : Store) (id : FrameId) : Option FrameId :=
  s.frames[id]?.bind Frame.parent

/-- A frame, its parent, the parent of that, and so on. Parents are older than their frames, so the
chain ends. -/
def chain (s : Store) (id : FrameId) : List FrameId :=
  if id < s.frames.size then
    match s.parent? id with
    | some parent => if parent < id then id :: s.chain parent else [id]
    | none => [id]
  else []
termination_by id

/-- The first frame of the chain that binds a name. -/
def owner? (s : Store) (id : FrameId) (name : String) : Option FrameId :=
  (s.chain id).find? fun frame => (s.bindings frame).binds name

/-- What a name is bound to in the first frame of the chain that binds it. -/
def lookup? (s : Store) (id : FrameId) (name : String) : Option Value :=
  (s.chain id).findSome? fun frame => (s.bindings frame).find? name

/-- Binds a name in the frame itself. -/
def define (s : Store) (id : FrameId) (name : String) (v : Value) : Store :=
  { s with frames := s.frames.modify id fun frame =>
      { frame with bindings := frame.bindings.insert name v } }

/-- Makes a frame, which is the last one. -/
def addFrame (s : Store) (bindings : Bindings Value) (parent : Option FrameId) : FrameId × Store :=
  (s.frames.size, { s with frames := s.frames.push ⟨bindings, parent⟩ })

/-- Everything that can be looked up from a frame. -/
def visible (s : Store) (id : FrameId) : Bindings Value :=
  (s.chain id).foldr (fun frame outer => outer.insertAll (s.bindings frame).entries) .empty

/-- The text of a frame in a listing: its own names and whether it has a parent. -/
def diagnoseFrame (s : Store) (id : FrameId) : String :=
  "Environment \x7b bindings: " ++ Quoted.encodeList (s.bindings id).names ++ ", has_parent: " ++
    (if (s.parent? id).isSome then "true" else "false") ++ " \x7d"

end Store

end EmbeddedLisp
