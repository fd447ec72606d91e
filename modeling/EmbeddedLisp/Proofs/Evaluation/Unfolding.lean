import EmbeddedLisp.Proofs.Evaluation.Course

/-! An evaluation without a limit of depth is a step over evaluations without a limit. The levels
that its parts need are bounded, as a step asks for finitely many of them. Where the one comes to no
end neither does the other, so they are compared by how they end, if they do. -/
namespace EmbeddedLisp

open EmbeddedLisp.Action

namespace Evaluation

variable {α β : Type}

@[simp] theorem finished_ok (x : α) (m : Machine) : Finished (.ok x m : Outcome α) := trivial

@[simp] theorem finished_error_iff {interrupt : Interrupt} {m : Machine} :
    Finished (.error interrupt m : Outcome α) ↔ interrupt ≠ .outOfLevels := by
  cases interrupt <;> simp [Finished]

/-- A sequence that ends has a first part that does. -/
theorem finished_of_bind {a : Action α} {f : α → Action β} {m : Machine}
    (hFinished : Finished ((a >>= f) m)) : Finished (a m) := by
  simp only [Bind.bind, EStateM.bind] at hFinished
  cases hRun : a m with
  | ok x n => simp
  | error interrupt n => simpa [hRun] using hFinished

namespace Course

/-- The end stays the same if all answers do that are finished. -/
theorem run_of_finished {evaluate evaluate' : Evaluator}
    (hKeeps : ∀ task : Task, Finished (task.answer evaluate) →
      task.answer evaluate' = task.answer evaluate)
    (course : Course α) (hFinished : Finished (course.run evaluate)) :
    course.run evaluate' = course.run evaluate := by
  induction course with
  | ended outcome => rfl
  | asks task next ih =>
    simp only [run] at hFinished ⊢
    cases hAnswer : task.answer evaluate with
    | ok v m =>
      rw [hAnswer] at hFinished
      rw [hKeeps task (by simp [hAnswer]), hAnswer]
      exact ih v m hFinished
    | error interrupt m =>
      rw [hAnswer] at hFinished
      rw [hKeeps task (by simpa [hAnswer] using hFinished), hAnswer]

/-- Finitely many answers need finitely many levels. -/
theorem exists_levels {host : Host} (course : Course α)
    (hFinished : Finished (course.run (evalUnlimited host))) :
    ∃ least, ∀ levels, least ≤ levels →
      course.run (eval host levels) = course.run (evalUnlimited host) := by
  induction course with
  | ended outcome => exact ⟨0, fun _ _ => rfl⟩
  | asks task next ih =>
    have hTask : Finished (task.answer (evalUnlimited host)) := by
      simp only [run] at hFinished
      cases hAnswer : task.answer (evalUnlimited host) with
      | ok v m => simp
      | error interrupt m => simpa [hAnswer] using hFinished
    obtain ⟨enough, hEnough⟩ := Evaluation.exists_levels hTask
    have hAnswer {levels : Nat} (hLe : enough ≤ levels) :
        task.answer (eval host levels) = task.answer (evalUnlimited host) :=
      (eval_of_le hLe (hEnough ▸ hTask)).trans hEnough.symm
    simp only [run] at hFinished ⊢
    cases hEnd : task.answer (evalUnlimited host) with
    | ok v m =>
      rw [hEnd] at hFinished
      obtain ⟨least, hLeast⟩ := ih v m hFinished
      refine ⟨max enough least, fun levels hLe => ?_⟩
      rw [hAnswer (by omega), hEnd]
      exact hLeast levels (by omega)
    | error interrupt m =>
      refine ⟨enough, fun levels hLe => ?_⟩
      rw [hAnswer hLe, hEnd]

end Course

/-- A list around an action does not decide whether it ends. -/
theorem finished_mapError {f : Error → Error} {a : Action α} {m : Machine} :
    Finished (mapError f a m) ↔ Finished (a m) := by
  rw [mapError_apply]
  match a m with
  | .ok x n => exact Iff.rfl
  | .error (.error error) n => exact Iff.rfl
  | .error .outOfLevels n => exact Iff.rfl

section

variable {host : Host} {e : Expression} {frame : FrameId} {m : Machine}

/-- A step that ends does so in the same way whatever becomes of evaluations that come to no end. -/
theorem step_of_finished {evaluate evaluate' : Evaluator}
    (hKeeps : ∀ task : Task, Finished (task.answer evaluate) →
      task.answer evaluate' = task.answer evaluate)
    (hFinished : Finished (step host evaluate e frame m)) :
    step host evaluate' e frame m = step host evaluate e frame m := by
  match e with
  | .integer _ | .float _ | .boolean _ | .text _ | .list [] => rfl
  | .list (head :: rest) =>
    obtain ⟨course, -, hCourse⟩ := sequential_evaluateList host head rest frame m
    simp only [step, finished_mapError, hCourse] at hFinished
    simp only [step, mapError_apply, hCourse, course.run_of_finished hKeeps hFinished]

/-- A step over the evaluator without a limit has enough levels already, if it ends. -/
theorem exists_levels_step (hFinished : Finished (step host (evalUnlimited host) e frame m)) :
    ∃ levels, eval host (levels + 1) e frame m = step host (evalUnlimited host) e frame m := by
  match e with
  | .integer _ | .float _ | .boolean _ | .text _ | .list [] => exact ⟨0, rfl⟩
  | .list (head :: rest) =>
    obtain ⟨course, -, hCourse⟩ := sequential_evaluateList host head rest frame m
    simp only [step, finished_mapError, hCourse] at hFinished
    obtain ⟨least, hLeast⟩ := course.exists_levels hFinished
    refine ⟨least, ?_⟩
    simp only [eval, step, mapError_apply, hCourse, hLeast least (Nat.le_refl _)]

end

/-- Whether two actions end in the same way wherever one of them comes to an end. -/
def SameEnds (a b : Action α) : Prop := ∀ m, Finished (a m) ∨ Finished (b m) → a m = b m

namespace SameEnds

variable {a b c : Action α}

theorem refl (a : Action α) : SameEnds a a := fun _ _ => rfl

theorem of_eq (hSame : a = b) : SameEnds a b := hSame ▸ refl a

theorem symm (h : SameEnds a b) : SameEnds b a := fun m hEnds => (h m hEnds.symm).symm

/-- An end of the first action is one of the second, and so one of the third. -/
theorem trans (hFirst : SameEnds a b) (hSecond : SameEnds b c) : SameEnds a c := by
  intro m hEnds
  rcases hEnds with hLeft | hRight
  · have hSame := hFirst m (.inl hLeft)
    rw [hSame, hSecond m (.inl (hSame ▸ hLeft))]
  · have hSame := hSecond m (.inr hRight)
    rw [hFirst m (.inr (hSame ▸ hRight)), hSame]

/-- Sequences end in the same way if their parts do. -/
theorem bind {f g : α → Action β} (hFirst : SameEnds a b) (hSecond : ∀ x, SameEnds (f x) (g x)) :
    SameEnds (a >>= f) (b >>= g) := by
  intro m hEnds
  have hSame := hFirst m (hEnds.imp finished_of_bind finished_of_bind)
  simp only [Bind.bind, EStateM.bind, hSame] at hEnds ⊢
  cases hRun : b m with
  | ok x n =>
    rw [hRun] at hEnds
    exact hSecond x n hEnds
  | error interrupt n => rfl

theorem mapError (f : Error → Error) (h : SameEnds a b) :
    SameEnds (mapError f a) (mapError f b) := by
  intro m hEnds
  simp only [finished_mapError] at hEnds
  rw [mapError_apply, mapError_apply, h m hEnds]

end SameEnds

/-- An evaluation without a limit is a step over evaluations without a limit. -/
theorem evalUnlimited_sameEnds (host : Host) (e : Expression) (frame : FrameId) :
    SameEnds (evalUnlimited host e frame) (step host (evalUnlimited host) e frame) := by
  intro m hEnds
  rcases hEnds with hLeft | hRight
  · obtain ⟨levels, hLevels⟩ := exists_levels hLeft
    rw [hLevels] at hLeft ⊢
    cases levels with
    | zero => exact hLeft.elim
    | succ levels =>
      have hKeeps (task : Task) (hTask : Finished (task.answer (eval host levels))) :
          task.answer (evalUnlimited host) = task.answer (eval host levels) :=
          evalUnlimited_of_finished hTask
      exact (step_of_finished hKeeps hLeft).symm
  · obtain ⟨levels, hLevels⟩ := exists_levels_step hRight
    rw [← hLevels] at hRight ⊢
    exact evalUnlimited_of_finished hRight

/-- An evaluation without an end does nothing. -/
theorem evalUnlimited_of_not_finished {host : Host} {e : Expression} {frame : FrameId} {m : Machine}
    (hNot : ¬Finished (evalUnlimited host e frame m)) :
    evalUnlimited host e frame m = .error .outOfLevels m := by
  refine evalUnlimited_of_endless fun levels hFinished => hNot ?_
  rwa [evalUnlimited_of_finished hFinished]

/-- Evaluations without a limit that end in the same way, if they do, are the same. -/
theorem SameEnds.evalUnlimited_eq {host : Host} {e e' : Expression} {frame : FrameId}
    (h : SameEnds (evalUnlimited host e frame) (evalUnlimited host e' frame)) :
    evalUnlimited host e frame = evalUnlimited host e' frame := by
  funext m
  by_cases hEnds : Finished (evalUnlimited host e frame m) ∨
    Finished (evalUnlimited host e' frame m)
  · exact h m hEnds
  · rw [not_or] at hEnds
    rw [evalUnlimited_of_not_finished hEnds.1, evalUnlimited_of_not_finished hEnds.2]

end Evaluation

end EmbeddedLisp
