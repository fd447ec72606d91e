import EmbeddedLisp.Proofs.Procedure.Rounds
import EmbeddedLisp.Proofs.Scope.Contents

/-! Walks from a frame to its parent, from there to the next one, and so on. Nothing in a walk asks
how old a frame is. It is because parents are older than their frames that no walk comes by a frame
twice and each one ends, and that what it finds is what the chain of the frame says. -/
namespace EmbeddedLisp.Store

/-- Whether a frame has another one as its parent. -/
def Under (s : Store) (f g : FrameId) : Prop := s.parent? f = some g

/-- Whether all parents are older than their frames. -/
def Ordered (s : Store) : Prop := ∀ {f g}, s.Under f g → g < f

/-- Asks one frame, and goes on to the parent if there is no answer. -/
def walkRound {α : Type} (s : Store) (ask : FrameId → Option α) (f : FrameId) :
    FrameId ⊕ Option α :=
  match ask f with
  | some answer => .inr (some answer)
  | none =>
    match s.parent? f with
    | some parent => .inl parent
    | none => .inr none

/-- What a frame itself binds a name to. -/
def askValue (s : Store) (name : String) (f : FrameId) : Option Value := (s.bindings f).find? name

/-- A frame itself, if it binds a name. -/
def askOwner (s : Store) (name : String) (f : FrameId) : Option FrameId :=
  if (s.bindings f).binds name then some f else none

/-- Collects what is visible from a frame by means of what is visible from its parent. The calls
inside of each other are no more than a number of levels. -/
def gather (s : Store) : (levels : Nat) → FrameId → Option (Bindings Value)
  | 0, _ => none
  | levels + 1, f =>
    match s.parent? f with
    | some parent => (s.gather levels parent).map (·.insertAll (s.bindings f).entries)
    | none => some (.ofList (s.bindings f).entries)

namespace Ordered

variable {s : Store} {f g : FrameId} (h : s.Ordered)

include h

theorem lt_of_transGen (hUnder : Relation.TransGen s.Under f g) : g < f := by
  induction hUnder with
  | single hUnder => exact h hUnder
  | tail _ hUnder ih => exact Nat.lt_trans (h hUnder) ih

/-- Parents are always older, so no frame is above itself. -/
theorem acyclic (f : FrameId) : ¬Relation.TransGen s.Under f f :=
  fun hCycle => Nat.lt_irrefl f (h.lt_of_transGen hCycle)

/-- Above each frame there is one without a parent, by induction on the number of the frame. -/
theorem exists_root (hSize : f < s.frames.size) :
    ∃ root < s.frames.size, Relation.ReflTransGen s.Under f root ∧ s.parent? root = none := by
  induction f using Nat.strongRecOn with
  | _ f ih =>
    cases hParent : s.parent? f with
    | none => exact ⟨f, hSize, .refl, hParent⟩
    | some g =>
      obtain ⟨root, hRoot, hReaches, hNone⟩ := ih g (h hParent) (Nat.lt_trans (h hParent) hSize)
      exact ⟨root, hRoot, .head hParent hReaches, hNone⟩

theorem define (f : FrameId) (name : String) (v : Value) : (s.define f name v).Ordered :=
  fun hUnder => h ((parent?_define s f name v _).symm.trans hUnder)

theorem chain_of_under (hUnder : s.Under f g) : s.chain f = f :: s.chain g := by
  have hParent : s.parent? f = some g := hUnder
  have hSize : f < s.frames.size := by
    refine Nat.lt_of_not_le fun hNone => ?_
    rw [parent?_of_size_le hNone] at hParent
    cases hParent
  rw [chain, if_pos hSize, hParent]
  exact if_pos (h hUnder)

end Ordered

theorem chain_of_root {s : Store} {f : FrameId} (hRoot : s.parent? f = none) :
    s.chain f = if f < s.frames.size then [f] else [] := by
  rw [chain, hRoot]

variable {s : Store}

/-- A walk does not take more rounds than there are frames up to the one that it begins in. -/
theorem run_walkRound {α : Type} {ask : FrameId → Option α} (h : s.Ordered)
    (hNowhere : ∀ f, s.frames.size ≤ f → ask f = none) {rounds : Nat} {f : FrameId}
    (hRounds : f < rounds) :
    Loop.run (s.walkRound ask) rounds f = some ((s.chain f).findSome? ask) := by
  induction rounds generalizing f with
  | zero => exact absurd hRounds (Nat.not_lt_zero f)
  | succ rounds ih =>
    cases hParent : s.parent? f with
    | some g =>
      rw [h.chain_of_under hParent, List.findSome?_cons]
      cases hAnswer : ask f with
      | some answer => exact Loop.run_of_answer _ (by rw [walkRound, hAnswer])
      | none =>
        have hNext : s.walkRound ask f = .inl g := by rw [walkRound, hAnswer, hParent]
        rw [Loop.run_of_next _ hNext]
        exact ih (Nat.lt_of_lt_of_le (h hParent) (Nat.lt_succ_iff.1 hRounds))
    | none =>
      rw [chain_of_root hParent]
      have hHere : s.walkRound ask f = .inr (ask f) := by
        rw [walkRound, hParent]
        cases ask f <;> rfl
      rw [Loop.run_of_answer _ hHere]
      split
      · rw [List.findSome?_singleton]
      · rename_i hNone
        rw [hNowhere f (Nat.not_lt.1 hNone), List.findSome?_nil]

/-- Looking a name up ends. -/
theorem run_lookup (h : s.Ordered) (f : FrameId) (name : String) :
    Loop.run (s.walkRound (s.askValue name)) (f + 1) f = some (s.lookup? f name) := by
  refine run_walkRound h (fun g hNone => ?_) (Nat.lt_succ_self f)
  rw [askValue, bindings_of_size_le hNone, Bindings.find?_empty]

theorem findSome?_askOwner (frames : List FrameId) (name : String) :
    frames.findSome? (s.askOwner name) = frames.find? fun f => (s.bindings f).binds name := by
  induction frames with
  | nil => rfl
  | cons f rest ih =>
    rw [List.findSome?_cons, List.find?_cons, askOwner, ih]
    cases (s.bindings f).binds name <;> rfl

/-- Looking for the binding to change ends. -/
theorem run_owner (h : s.Ordered) (f : FrameId) (name : String) :
    Loop.run (s.walkRound (s.askOwner name)) (f + 1) f = some (s.owner? f name) := by
  rw [owner?, ← findSome?_askOwner]
  refine run_walkRound h (fun g hNone => ?_) (Nat.lt_succ_self f)
  rw [askOwner, bindings_of_size_le hNone]
  rfl

/-- Listing what is visible ends. -/
theorem gather_eq_visible (h : s.Ordered) {levels : Nat} {f : FrameId} (hLevels : f < levels) :
    s.gather levels f = some (s.visible f) := by
  induction levels generalizing f with
  | zero => exact absurd hLevels (Nat.not_lt_zero f)
  | succ levels ih =>
    cases hParent : s.parent? f with
    | some g =>
      rw [gather, hParent, visible, h.chain_of_under hParent]
      exact congrArg (Option.map _)
        (ih (Nat.lt_of_lt_of_le (h hParent) (Nat.lt_succ_iff.1 hLevels)))
    | none =>
      rw [gather, hParent, visible, chain_of_root hParent]
      by_cases hSize : f < s.frames.size
      · rw [if_pos hSize]
        rfl
      · rw [if_neg hSize, bindings_of_size_le (Nat.not_lt.1 hSize)]
        rfl

end EmbeddedLisp.Store
