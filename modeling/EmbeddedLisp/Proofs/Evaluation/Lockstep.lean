import EmbeddedLisp.Interpreter
import EmbeddedLisp.Proofs.Evaluation.Levels

/-! Couplings in lockstep, in which neither run is ahead of the other. They hold not only of
evaluations with a number of levels but also within a limit of depth and without one, and so of all
that an interpreter reads and evaluates. Of two runs in lockstep either both come to an end or none
does. -/
namespace EmbeddedLisp.Coupling

open Evaluation

variable {α β : Type} {c : Coupling} {caller : Caller} {w : c.World}

/-- Neither run is ahead of the other, and both are interrupted in the same way. -/
structure InLockstep (c : Coupling) : Prop where
  notAhead : ¬c.ahead
  interrupts : ∀ {i j}, c.Interrupts i j ↔ i = j

/-- Of two runs in lockstep both come to an end, or none does. -/
theorem Outcomes.finished_iff (hLockstep : c.InLockstep) {R : c.World → α → β → Prop}
    {left : Outcome α} {right : Outcome β} (hOutcomes : c.Outcomes w R left right) :
    Finished left ↔ Finished right := by
  cases hOutcomes with
  | done => exact Iff.rfl
  | @stopped i _ _ _ _ _ _ hInterrupts =>
    cases hLockstep.interrupts.1 hInterrupts
    cases i <;> exact Iff.rfl
  | outrun hAhead => exact absurd hAhead hLockstep.notAhead

namespace Lawful

/-- Both are cut off at the same depth. -/
theorem evalWithin (h : c.Lawful caller) (hLockstep : c.InLockstep) (limit : Nat) :
    c.Evaluators (Evaluation.evalWithin caller limit) (Evaluation.evalWithin caller limit) := by
  intro w e f g hForm hFrames m n hMachines
  have hOutcomes :=
    h.eval (limit + 1) 0 (.inl ⟨rfl, hLockstep.interrupts.2 rfl⟩) hForm hFrames hMachines
  rw [Nat.add_zero] at hOutcomes
  simp only [Evaluation.evalWithin, EStateM.adaptExcept]
  generalize Evaluation.eval caller (limit + 1) e f m = left at hOutcomes ⊢
  generalize Evaluation.eval caller (limit + 1) e g n = right at hOutcomes ⊢
  cases hOutcomes with
  | done later hLater hMachines hResult => exact .done later hLater hMachines hResult
  | @stopped i _ _ _ later hLater hMachines hInterrupts =>
    cases hLockstep.interrupts.1 hInterrupts
    cases i <;> exact .stopped later hLater hMachines (h.error _)
  | outrun hAhead => exact absurd hAhead hLockstep.notAhead

/-- Without a limit the runs take the same number of levels, or neither ends. -/
theorem evalUnlimited (h : c.Lawful caller) (hLockstep : c.InLockstep) :
    c.Evaluators (Evaluation.evalUnlimited caller) (Evaluation.evalUnlimited caller) := by
  intro w e f g hForm hFrames m n hMachines
  have hEval (levels : Nat) : c.Outcomes w c.Values (Evaluation.eval caller levels e f m)
      (Evaluation.eval caller levels e g n) :=
    h.eval levels 0 (.inl ⟨rfl, hLockstep.interrupts.2 rfl⟩) hForm hFrames hMachines
  by_cases hFinished : ∃ levels, Finished (Evaluation.eval caller levels e f m)
  · obtain ⟨levels, hFinished⟩ := hFinished
    rw [evalUnlimited_of_finished hFinished,
      evalUnlimited_of_finished (((hEval levels).finished_iff hLockstep).1 hFinished)]
    exact hEval levels
  · have hEndless (levels : Nat) := not_exists.1 hFinished levels
    rw [evalUnlimited_of_endless hEndless,
      evalUnlimited_of_endless fun levels =>
      mt ((hEval levels).finished_iff hLockstep).2 (hEndless levels)]
    exact .stopped w (h.refl w) hMachines (hLockstep.interrupts.2 rfl)

/-- So within a limit or without one. -/
theorem evaluateBy (h : c.Lawful caller) (hLockstep : c.InLockstep) (limit : Option Nat) :
    c.Evaluators (Interpreter.evaluateBy caller limit) (Interpreter.evaluateBy caller limit) := by
  cases limit with
  | none => exact h.evalUnlimited hLockstep
  | some limit => exact h.evalWithin hLockstep limit

/-- So with the procedures of a host. -/
theorem evaluate {host : Host} (h : c.Lawful host) (hLockstep : c.InLockstep) (limit : Option Nat) :
    c.Evaluators (Interpreter.evaluate host limit) (Interpreter.evaluate host limit) :=
  h.evaluateBy hLockstep limit

/-- Two interpreters with the same options that evaluate the same text in related global frames. -/
theorem evalSourceBy (h : c.Lawful caller) (hLockstep : c.InLockstep) (hForms : ∀ e, c.Forms e)
    {i i' : Interpreter} (hOptions : i.options = i'.options)
    (hFrames : c.Frames w i.globalFrame i'.globalFrame) (text : String) :
    c.Together w c.Values (i.evalSourceBy caller text) (i'.evalSourceBy caller text) := by
  unfold Interpreter.evalSourceBy Interpreter.evalBy
  rw [← hOptions]
  refine h.inTurn (fun item _ w' hLater => ?_) (h.quoted w .nil)
  cases item with
  | error error => exact h.fail _
  | ok e =>
    exact h.evaluateBy hLockstep i.options.maxDepth (hForms e) (h.frames_mono hLater hFrames)

theorem evalSource {host : Host} (h : c.Lawful host) (hLockstep : c.InLockstep)
    (hForms : ∀ e, c.Forms e) {i i' : Interpreter} (hOptions : i.options = i'.options)
    (hFrames : c.Frames w i.globalFrame i'.globalFrame) (text : String) :
    c.Together w c.Values (i.evalSource host text) (i'.evalSource host text) :=
  h.evalSourceBy hLockstep hForms hOptions hFrames text

end Lawful

end EmbeddedLisp.Coupling
