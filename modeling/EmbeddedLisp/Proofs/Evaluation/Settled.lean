import EmbeddedLisp.Proofs.Evaluation.Unfolding

/-! Settled errors. Where a list fails, the error names the list unless it names one inside of it
already. So the errors that evaluations come to are settled: no list around the one that is named
adds to them. -/
namespace EmbeddedLisp

open EmbeddedLisp.Action Evaluation

variable {α β : Type}

/-- An error that has been placed in a form is not placed in another one. -/
theorem Error.inForm_inForm (e e' : Expression) (error : Error) :
    (error.inForm e).inForm e' = error.inForm e := by
  match error with
  | .rejected fault none =>
    by_cases hMarked : occursIn formMark.toList fault.message.toList <;> simp [inForm, hMarked]
  | .rejected _ (some _) | .reading _ | .unbound _ | .tooDeep _ => rfl

/-- So placing an interrupt in a form a second time, in whichever form, changes nothing. -/
theorem Interrupt.inForm_inForm (e e' : Expression) (interrupt : Interrupt) :
    (interrupt.mapError (Error.inForm e)).mapError (Error.inForm e') =
      interrupt.mapError (Error.inForm e) := by
  cases interrupt with
  | error error => exact congrArg Interrupt.error (error.inForm_inForm e e')
  | outOfLevels => rfl

/-- What interrupts a sequence interrupts one of its parts. -/
theorem Action.adaptExcept_bind (f : Interrupt → Interrupt) (a : Action α) (g : α → Action β) :
    (a >>= g).adaptExcept f = a.adaptExcept f >>= fun x => (g x).adaptExcept f := by
  funext m
  simp only [EStateM.adaptExcept, Bind.bind, EStateM.bind]
  cases a m <;> rfl

theorem Action.mapError_bind (f : Error → Error) (a : Action α) (g : α → Action β) :
    mapError f (a >>= g) = mapError f a >>= fun x => mapError f (g x) := adaptExcept_bind _ a g

/-- An action whose errors are not changed by a list around it. -/
def Settled (a : Action α) : Prop := ∀ e, mapError (Error.inForm e) a = a

namespace Settled

theorem pure (x : α) : Settled (Pure.pure x : Action α) := fun _ => rfl

theorem bind {a : Action α} {f : α → Action β} (hFirst : Settled a) (hSecond : ∀ x, Settled (f x)) :
    Settled (a >>= f) := by
  intro e
  simp only [mapError_bind, hFirst e, hSecond _ e]

/-- Whatever an action fails with, it is settled once a list has been put around it. -/
theorem mapError (e : Expression) (a : Action α) : Settled (mapError (Error.inForm e) a) := by
  intro e'
  funext m
  simp only [mapError_apply]
  cases a m with
  | ok x n => rfl
  | error interrupt n => simp only [Interrupt.inForm_inForm]

theorem addFrame (entries : List (String × Value)) (parent : Option FrameId) :
    Settled (Action.addFrame entries parent) := fun _ => rfl

/-- The name that is missed belongs to no form. -/
theorem lookup (frame : FrameId) (name : String) : Settled (Action.lookup frame name) := by
  intro e
  funext m
  rw [mapError_apply, lookup_apply]
  cases m.store.lookup? frame name <;> rfl

/-- This is how it is used: a list around a settled action does not show in the error. -/
theorem interrupt_eq {a : Action α} (h : Settled a) {m n : Machine} {interrupt : Interrupt}
    (hFails : a m = .error interrupt n) (e : Expression) :
    interrupt.mapError (Error.inForm e) = interrupt := by
  have hSame := congrFun (h e) m
  rw [mapError_apply, hFails] at hSame
  injection hSame

/-- A step on a list puts that list around its error, and a step on an atom places nothing. -/
theorem step (host : Host) (evaluate : Evaluator) (e : Expression) (frame : FrameId) :
    Settled (Evaluation.step host evaluate e frame) := by
  match e with
  | .integer _ | .float _ | .boolean _ | .list [] => exact pure _
  | .text token =>
    simp only [Evaluation.step]
    cases literalContents? token with
    | some contents => exact pure _
    | none => exact lookup frame token
  | .list (head :: rest) => exact mapError _ _

/-- With no levels left there is nothing but an interrupt, and a level more is a step. -/
theorem eval (host : Host) (levels : Nat) (e : Expression) (frame : FrameId) :
    Settled (Evaluation.eval host levels e frame) := by
  cases levels with
  | zero => exact fun _ => rfl
  | succ levels => exact step host (Evaluation.eval host levels) e frame

/-- Without a limit the evaluation is one with enough levels, or does not end. -/
theorem evalUnlimited (host : Host) (e : Expression) (frame : FrameId) :
    Settled (Evaluation.evalUnlimited host e frame) := by
  intro around
  funext m
  rw [mapError_apply]
  by_cases hFinished : Finished (Evaluation.evalUnlimited host e frame m)
  · obtain ⟨levels, hLevels⟩ := exists_levels hFinished
    rw [hLevels, ← mapError_apply, eval host levels e frame around]
  · rw [evalUnlimited_of_not_finished hFinished]
    rfl

/-- The check of the depth fails with an error that belongs to no form. -/
theorem evalAt (host : Host) (limit : Option Nat) (nested depth : Nat) (e : Expression)
    (frame : FrameId) :
    Settled (Evaluation.evalAt host limit nested depth e frame) := by
  cases nested with
  | zero => exact fun _ => rfl
  | succ nested =>
    simp only [Evaluation.evalAt, stepAt]
    cases limit.filter (· < depth) with
    | some limit => exact fun _ => rfl
    | none => exact step _ _ _ _

section

variable {evaluate : Evaluator} (hEvaluate : ∀ e frame, Settled (evaluate e frame))
  (frame : FrameId)

include hEvaluate

theorem mapM (forms : List Expression) : Settled (forms.mapM (evaluate · frame)) := by
  induction forms with
  | nil => exact pure []
  | cons e rest ih =>
    rw [List.mapM_cons]
    exact (hEvaluate e frame).bind fun v => ih.bind fun vs => pure (v :: vs)

theorem evaluateBody (forms : List Expression) :
    Settled (Form.evaluateBody evaluate frame forms) := by
  have hFold (v : Value) : Settled (forms.foldlM (fun _ e => evaluate e frame) v) := by
    induction forms generalizing v with
    | nil => exact pure v
    | cons e rest ih =>
      rw [List.foldlM_cons]
      exact (hEvaluate e frame).bind ih
  exact hFold .nil

theorem evaluateUntil (decisive : Bool) (v : Value) (forms : List Expression) :
    Settled (Form.evaluateUntil evaluate frame decisive v forms) := by
  induction forms generalizing v with
  | nil => exact pure v
  | cons e rest ih =>
    rw [Form.evaluateUntil]
    refine (hEvaluate e frame).bind fun v => ?_
    split
    · exact pure v
    · exact ih v

end

end Settled

end EmbeddedLisp
