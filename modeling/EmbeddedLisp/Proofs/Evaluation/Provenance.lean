import EmbeddedLisp.Proofs.Evaluation.Origin

/-! Where the forms come from that are evaluated. Whatever is evaluated on the way keeps to the
discipline that the evaluation as a whole keeps to. So each form that comes up is a part of the one
that was started with or of the body of a closure that was there before, or it joins several such
parts into one body. -/
namespace EmbeddedLisp

open EmbeddedLisp.Action Evaluation Form
open Expression (PartOf)

/-- Whether the native procedures are builtin that a list may apply. -/
def Evaluation.AppliesBuiltins (evaluate : Evaluator) (frame : FrameId) (m : Machine)
    (elements : List Expression) : Prop :=
  ∀ head rest native n, elements = head :: rest → head.symbol?.bind Keyword.ofName? = none →
    evaluate head frame m = .ok (.procedure (.native native)) n →
    ∃ procedure, native = .builtin procedure

namespace Coupling.Lawful

variable {c : Coupling} {host : Host}

/-- The check of the depth comes to the same in both runs. -/
theorem stepAt (h : c.Lawful host) {evaluate evaluate' : Evaluator}
    (hEvaluate : c.Evaluators evaluate evaluate') (limit : Option Nat) (depth : Nat) :
    c.Evaluators (Evaluation.stepAt host limit depth evaluate)
      (Evaluation.stepAt host limit depth evaluate') := by
  intro w e f g hForm hFrames
  simp only [Evaluation.stepAt]
  cases limit.filter (· < depth) with
  | some exceeded => exact h.fail _
  | none => exact h.step hEvaluate hForm hFrames

theorem evalAt (h : c.Lawful host) (hLockstep : c.InLockstep) (limit : Option Nat)
    (nested depth : Nat) :
    c.Evaluators (Evaluation.evalAt host limit nested depth)
      (Evaluation.evalAt host limit nested depth) := by
  induction nested generalizing depth with
  | zero =>
    intro w e f g _ _ m n hMachines
    exact .stopped w (h.refl w) hMachines (hLockstep.interrupts.2 rfl)
  | succ nested ih => exact h.stepAt (ih (depth + 1)) limit depth

end Coupling.Lawful

namespace Discipline

/-- A task that keeps to a discipline. -/
structure Admits (d : Discipline) (task : Task) : Prop where
  form : d.Forms task.form
  frame : d.Frames task.machine.store task.frame
  stores : d.Stores task.machine.store

namespace Lawful

variable {d : Discipline} {host : Host} {limit depth : Nat} {task sub : Task} (h : d.Lawful host)

include h

/-- What is asked for keeps to the discipline. A task that did not could be answered in any way, and
then it would not matter either if the evaluation stopped there. -/
theorem asks (hTask : d.Admits task) (hAsks : Asks host limit depth task sub) : d.Admits sub := by
  by_contra hNot
  have hEvaluate :
    d.coupling.Evaluators (Evaluation.evalAt host (some limit) (limit + 2) (depth + 1))
      (stopAt sub (Evaluation.evalAt host (some limit) (limit + 2) (depth + 1))) := by
    rintro s e f _ hForm ⟨rfl, hFrame⟩ m _ ⟨rfl, rfl, hStores⟩
    have hOther : sub ≠ ⟨e, f, m⟩ := by
      rintro rfl
      exact hNot ⟨hForm, hFrame, hStores⟩
    rw [stopAt, if_neg hOther]
    exact h.coupling_lawful.evalAt d.inLockstep _ _ _ hForm ⟨rfl, hFrame⟩ ⟨rfl, rfl, hStores⟩
  have hOutcomes :=
    h.coupling_lawful.stepAt hEvaluate (some limit) depth hTask.form ⟨rfl, hTask.frame⟩
    ⟨rfl, rfl, hTask.stores⟩
  have hFinished : Finished (task.answer (Evaluation.evalAt host (some limit) (limit + 2) depth)) :=
    finished_evalAt (by omega) _ _ _
  rw [evalAt_eq_stepAt] at hFinished
  exact hAsks ((hOutcomes.finished_iff d.inLockstep).1 hFinished)

/-- Whatever arises from a task that is in order is in order, by induction on how it arises. -/
theorem arises (hTask : d.Admits task) (hArises : Arises host limit task depth sub) :
    d.Admits sub := by
  induction hArises with
  | outermost => exact hTask
  | inside _ hAsks ih => exact h.asks ih hAsks

theorem answer (hTask : d.Admits task) :
    d.Keeps task.machine.store d.Values
      (task.answer (Evaluation.evalAt host (some limit) (limit + 2) depth)) :=
  keeps_of_together (h.coupling_lawful.evalAt d.inLockstep _ _ _ hTask.form ⟨rfl, hTask.frame⟩)
    hTask.stores

/-- If no procedures of a host can come up, then none is applied. -/
theorem appliesBuiltins
    (hNatives : ∀ {s native}, d.Procedures s (.native native) →
      ∃ procedure, native = .builtin procedure)
    {elements : List Expression} {frame : FrameId} {m : Machine}
    (hTask : d.Admits ⟨.list elements, frame, m⟩) :
    AppliesBuiltins (Evaluation.evalAt host (some limit) (limit + 2) depth) frame m elements := by
  rintro head rest native n rfl hKeyword hHead
  have hAdmits : d.Admits ⟨head, frame, m⟩ :=
    ⟨h.form_head hTask.form hKeyword, hTask.frame, hTask.stores⟩
  have hKeeps : d.Keeps m.store d.Values
      (Task.answer ⟨head, frame, m⟩ (Evaluation.evalAt host (some limit) (limit + 2) depth)) :=
      h.answer hAdmits
  rw [Task.answer, hHead] at hKeeps
  exact hNatives (hKeeps.good _ rfl _ (List.mem_singleton_self _))

end Lawful

end Discipline

namespace Evaluation

/-- The forms that evaluations come to from some forms: their parts, and several forms as one
body. -/
inductive Sourced (Origin : Expression → Prop) : Expression → Prop where
  | part {e origin : Expression} (hOrigin : Origin origin) (hPart : e.PartOf origin) :
      Sourced Origin e
  | joined {forms : List Expression} (hEach : ∀ e ∈ forms, Sourced Origin e) :
      Sourced Origin (.list (.text Keyword.sequence.name :: forms))

namespace Sourced

variable {Origin : Expression → Prop} {first : Expression} {others forms : List Expression}

theorem head (hForm : Sourced Origin (.list (first :: others)))
    (hKeyword : first.symbol?.bind Keyword.ofName? = none) : Sourced Origin first := by
  cases hForm with
  | part hOrigin hPart =>
    exact .part hOrigin (.trans (.element (.whole _) List.mem_cons_self) hPart)
  | joined => cases hKeyword

theorem rest (hForm : Sourced Origin (.list (first :: others))) :
    ∀ e ∈ others, Sourced Origin e := by
  intro e hMem
  cases hForm with
  | part hOrigin hPart =>
    exact .part hOrigin (.trans (.element (.whole _) (List.mem_cons_of_mem _ hMem)) hPart)
  | joined hEach => exact hEach e hMem

theorem body (hForms : ∀ e ∈ forms, Sourced Origin e) : Sourced Origin (joinBody forms) := by
  match forms with
  | [e] => exact hForms e List.mem_cons_self
  | [] | _ :: _ :: _ => exact .joined hForms

end Sourced

/-- The procedures that are builtin or have a body that comes from some forms. -/
inductive SourcedProcedures (Origin : Expression → Prop) : Procedure → Prop where
  | builtin (procedure : Builtin) : SourcedProcedures Origin (.native (.builtin procedure))
  | closure {k : Closure} (hBody : Sourced Origin k.body) : SourcedProcedures Origin (.closure k)

/-- Of the native procedures only the builtin ones come up. -/
theorem SourcedProcedures.exists_builtin {Origin : Expression → Prop} {native : Native}
    (hNative : SourcedProcedures Origin (.native native)) :
    ∃ procedure, native = .builtin procedure := by
  cases hNative with
  | builtin procedure => exact ⟨procedure, rfl⟩

/-- A run in which all forms come from some forms. -/
def sourcing (Origin : Expression → Prop) : Discipline where
  Stores s := ∀ p, s.Holds p → SourcedProcedures Origin p
  Frames _ _ := True
  Procedures _ := SourcedProcedures Origin
  Forms := Sourced Origin

theorem sourcing_opens {Origin : Expression → Prop} {s : Store} {entries : List (String × Value)}
    (hStores : (sourcing Origin).Stores s) (hEntries : (sourcing Origin).Entries s entries)
    (parent : FrameId) :
    (sourcing Origin).Opens s entries parent := by
  refine ⟨fun p hHeld => ?_, trivial⟩
  rcases Store.holds_addFrame hHeld with ⟨entry, hEntry, hMem⟩ | hBefore
  · exact hEntries entry hEntry p hMem
  · exact hStores p hBefore

/-- Only parts of given forms are ever evaluated, as long as no procedure of a host is at hand. -/
theorem sourcing_lawful (Origin : Expression → Prop) (host : Host) :
    (sourcing Origin).Lawful host where
  form_head hForm := hForm.head
  form_rest hForm := hForm.rest
  form_body := Sourced.body
  frames_mono _ := id
  procedures_mono _ := id
  lookup hStores _ _ hFound p hMem := hStores p (Store.holds_of_lookup? hFound hMem)
  define hStores _ hValue name p hHeld := (Store.holds_define hHeld).elim (hValue p) (hStores p)
  assign hStores _ hValue _ _ p hHeld := (Store.holds_define hHeld).elim (hValue p) (hStores p)
  child hStores _ hEntries := sourcing_opens hStores hEntries _
  call hStores _ hEntries := sourcing_opens hStores hEntries _
  body := by
    intro s k hProcedure
    cases hProcedure with
    | closure hBody => exact hBody
  makes hStores _ hForm _ _ := ⟨hStores, .closure hForm⟩
  native _ _ hNative := nomatch hNative

end Evaluation

end EmbeddedLisp
