import EmbeddedLisp.Proofs.Evaluation.Levels

/-! Evaluation at a depth. The evaluator counts how deep it is, and what it evaluates on the way is
one deeper. Within a limit this comes to an end for every form in every store, whatever the closures
in it call: at the depth behind the limit nothing more is asked for, so the distance from there
decreases from each evaluation to those inside of it. -/
namespace EmbeddedLisp

namespace Evaluation

open EmbeddedLisp.Action

/-- Evaluates a form at a depth, by means of an evaluator for the depth below, unless the depth is
beyond the limit. -/
def stepAt (host : Host) (limit : Option Nat) (depth : Nat) (evaluate : Evaluator) : Evaluator :=
  match limit.filter (· < depth) with
  | some limit => fun _ _ => fail (.tooDeep limit)
  | none => step host evaluate

/-- Evaluates a form at a depth. Evaluations that are inside of each other are counted on their own,
and there is no answer if they are more than `nested`. -/
def evalAt (host : Host) (limit : Option Nat) : (nested depth : Nat) → Evaluator
  | 0, _ => fun _ _ => throw .outOfLevels
  | nested + 1, depth => stepAt host limit depth (evalAt host limit nested (depth + 1))

/-- Beyond the limit nothing is looked at. -/
theorem stepAt_beyond (host : Host) {limit depth : Nat} (hBeyond : limit < depth)
    (evaluate : Evaluator) :
    stepAt host (some limit) depth evaluate = fun _ _ => fail (.tooDeep limit) := by
  simp [stepAt, Option.filter, hBeyond]

theorem stepAt_within (host : Host) {limit depth : Nat} (hWithin : depth ≤ limit)
    (evaluate : Evaluator) : stepAt host (some limit) depth evaluate = step host evaluate := by
  simp [stepAt, Option.filter, Nat.not_lt.2 hWithin]

/-- What interrupts an evaluation that runs out of levels, and one that knows the limit. -/
inductive Cut (limit : Nat) : Interrupt → Interrupt → Prop where
  | levels : Cut limit .outOfLevels (.error (.tooDeep limit))
  | error (cause : Error) : Cut limit (.error cause) (.error cause)

/-- The depth is not named by the lists around it, so it is the same error outside of them. -/
theorem Cut.inForm {limit : Nat} {i j : Interrupt} (e : Expression) (hCut : Cut limit i j) :
    Cut limit (i.mapError (Error.inForm e)) (j.mapError (Error.inForm e)) := by
  cases hCut with
  | levels => exact .levels
  | error cause => exact .error _

/-- The levels that are left are the depths up to the limit. -/
theorem evalAt_together (host : Host) {limit levels depth : Nat} (nested : Nat)
    (hLevels : levels + depth = limit + 1) (hNested : levels < nested) :
    (Coupling.identity (Cut limit) False).Evaluators (eval host levels)
      (evalAt host (some limit) nested depth) := by
  have hLawful : (Coupling.identity (Cut limit) False).Lawful host :=
    Coupling.identity_lawful .error (fun e hCut => hCut.inForm e) fun native arguments f =>
      Coupling.identity_together .error (fun _ => rfl) (finished_callNative host native arguments f)
  obtain ⟨nested, rfl⟩ := Nat.exists_eq_succ_of_ne_zero (Nat.ne_zero_of_lt hNested)
  induction levels generalizing nested depth with
  | zero =>
    rw [evalAt, stepAt_beyond host (by omega)]
    rintro _ e f _ - rfl m _ rfl
    exact .stopped () trivial rfl .levels
  | succ levels ih =>
    obtain ⟨nested, rfl⟩ :=
      Nat.exists_eq_succ_of_ne_zero (Nat.ne_zero_of_lt (Nat.lt_of_succ_lt_succ hNested))
    rw [evalAt, stepAt_within host (by omega)]
    exact hLawful.step (ih (by omega) nested (by omega))

variable {host : Host} {limit : Nat}

/-- The distance from the depth behind the limit bounds how many evaluations are inside of each
other, so with one more there always is an end. -/
theorem finished_evalAt {nested depth : Nat} (hNested : limit + 1 - depth < nested) (e : Expression)
    (frame : FrameId) (m : Machine) :
    Finished (evalAt host (some limit) nested depth e frame m) := by
  by_cases hBeyond : limit < depth
  · obtain ⟨nested, rfl⟩ := Nat.exists_eq_succ_of_ne_zero (Nat.ne_zero_of_lt hNested)
    rw [evalAt, stepAt_beyond host hBeyond]
    trivial
  · have hTogether := evalAt_together host nested
      (Nat.sub_add_cancel (Nat.le_succ_of_le (Nat.not_lt.1 hBeyond))) hNested
    have hOutcomes := hTogether (w := ()) (e := e) trivial (rfl : frame = frame) (rfl : m = m)
    generalize eval host (limit + 1 - depth) e frame m = left at hOutcomes
    generalize evalAt host (some limit) nested depth e frame m = right at hOutcomes ⊢
    cases hOutcomes with
    | done => trivial
    | stopped _ _ _ hCut => cases hCut <;> trivial
    | outrun hAhead => exact hAhead.elim

/-- Counting depths is giving levels. -/
theorem evalAt_eq_evalWithin : evalAt host (some limit) (limit + 2) 0 = evalWithin host limit := by
  funext e frame m
  have hTogether := evalAt_together host (limit + 2) (Nat.add_zero (limit + 1)) (Nat.lt_succ_self _)
  have hOutcomes := hTogether (w := ()) (e := e) trivial (rfl : frame = frame) (rfl : m = m)
  simp only [evalWithin, EStateM.adaptExcept]
  generalize eval host (limit + 1) e frame m = left at hOutcomes ⊢
  generalize evalAt host (some limit) (limit + 2) 0 e frame m = right at hOutcomes ⊢
  cases hOutcomes with
  | done _ _ hMachines hResult =>
    cases hMachines
    cases hResult
    rfl
  | stopped _ _ hMachines hCut =>
    cases hMachines
    cases hCut <;> rfl
  | outrun hAhead => exact hAhead.elim

/-- What is evaluated: a form, in a frame, on the machine as it is then. -/
structure Task where
  form : Expression
  frame : FrameId
  machine : Machine

open Classical in
/-- An evaluator that stops where it is asked for a task. -/
noncomputable def stopAt (task : Task) (evaluate : Evaluator) : Evaluator := fun e frame m =>
  if task = ⟨e, frame, m⟩ then .error .outOfLevels m else evaluate e frame m

/-- Whether the evaluation of a task at a depth asks for the evaluation of another one. It stops if
what is evaluated one deeper stops there, and it would not stop otherwise. -/
def Asks (host : Host) (limit depth : Nat) (task sub : Task) : Prop :=
  ¬Finished (stepAt host (some limit) depth
    (stopAt sub (evalAt host (some limit) (limit + 2) (depth + 1))) task.form
    task.frame task.machine)

/-- The tasks that are evaluated in the course of a task, each with the depth that it is evaluated
at. -/
inductive Arises (host : Host) (limit : Nat) (task : Task) : (depth : Nat) → Task → Prop where
  | outermost : Arises host limit task 0 task
  | inside {depth : Nat} {outer inner : Task} (hOuter : Arises host limit task depth outer)
      (hAsks : Asks host limit depth outer inner) : Arises host limit task (depth + 1) inner

theorem Asks.depth_le {depth : Nat} {task sub : Task} (hAsks : Asks host limit depth task sub) :
    depth ≤ limit := by
  by_contra hBeyond
  unfold Asks at hAsks
  rw [stepAt_beyond host (Nat.not_le.1 hBeyond)] at hAsks
  exact hAsks trivial

theorem Arises.depth_le {depth : Nat} {task sub : Task}
    (hArises : Arises host limit task depth sub) :
    depth ≤ limit + 1 := by
  cases hArises with
  | outermost => exact Nat.zero_le _
  | inside _ hAsks => exact Nat.succ_le_succ hAsks.depth_le

end Evaluation

end EmbeddedLisp
