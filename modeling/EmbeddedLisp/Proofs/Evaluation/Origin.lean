import EmbeddedLisp.Proofs.Evaluation.Settled

/-! Where errors come from. An evaluation fails either of its own, while all that it asks for has a
value, or because an evaluation fails that it asks for. So each error is raised in one of the
evaluations on the way, at the depth where nothing inside of it has failed, and it comes out of all
evaluations around that one as it was raised. -/
namespace EmbeddedLisp

open EmbeddedLisp.Action

namespace Evaluation

variable {α : Type}

/-- The evaluator that comes to the same values, and does not say why where there are none. -/
def valuesOf (evaluate : Evaluator) : Evaluator := fun e frame m =>
  match evaluate e frame m with
  | .ok v after => .ok v after
  | .error _ after => .error .outOfLevels after

theorem valuesOf_keepsValues (evaluate : Evaluator) :
    Course.KeepsValues evaluate (valuesOf evaluate) := by
  intro task v m hAnswer
  simp only [Task.answer] at hAnswer
  simp only [Task.answer, valuesOf, hAnswer]

/-- Where the one evaluator does not stop, both answer the same. -/
theorem answer_valuesOf {evaluate : Evaluator} {task : Task}
    (hFinished : Finished (task.answer (valuesOf evaluate))) :
    task.answer evaluate = task.answer (valuesOf evaluate) := by
  simp only [Task.answer, valuesOf] at hFinished ⊢
  cases hAnswer : evaluate task.form task.frame task.machine with
  | ok v m => rfl
  | error interrupt m =>
    rw [hAnswer] at hFinished
    exact hFinished.elim

namespace Course

/-- A course that comes to a value has been answered with values only. -/
theorem run_of_ok {evaluate evaluate' : Evaluator} (hKeeps : KeepsValues evaluate evaluate')
    (course : Course α) {x : α} {m : Machine} (hRun : course.run evaluate = .ok x m) :
    course.run evaluate' = .ok x m := by
  induction course with
  | ended outcome => exact hRun
  | asks task next ih =>
    simp only [run] at hRun ⊢
    cases hAnswer : task.answer evaluate with
    | ok v n =>
      rw [hAnswer] at hRun
      rw [hKeeps task v n hAnswer]
      exact ih v n hRun
    | error interrupt n =>
      rw [hAnswer] at hRun
      cases hRun

/-- A course that is stopped at a task asks for it, and ends with what the task fails with. -/
theorem run_stopAt (course : Course α) (evaluate : Evaluator) (task : Task) :
    course.run (stopAt task evaluate) = course.run evaluate ∨
      ∀ interrupt m, task.answer evaluate = .error interrupt m →
        course.run evaluate = .error interrupt m := by
  induction course with
  | ended outcome => exact .inl rfl
  | asks asked next ih =>
    by_cases hSame : task = asked
    · subst hSame
      refine .inr fun interrupt m hAnswer => ?_
      simp only [run, hAnswer]
    · have hAnswer : asked.answer (stopAt task evaluate) = asked.answer evaluate := by
        simp only [Task.answer, stopAt, if_neg hSame]
      simp only [run, hAnswer]
      cases asked.answer evaluate with
      | ok v n => exact ih v n
      | error interrupt n => exact .inl rfl

end Course

/-- An action that only asks for evaluations fails of its own if they all have values. -/
theorem Sequential.own {Own : Interrupt → Prop} {action : Evaluator → Action α}
    (h : Sequential Own action) {evaluate : Evaluator} {m after : Machine} {error : Error}
    (hFails : action (valuesOf evaluate) m = .error (.error error) after) : Own (.error error) := by
  obtain ⟨course, hOwns, hCourse⟩ := h m
  rw [hCourse] at hFails
  rcases course.own_or_answer hOwns hFails with hOwn | ⟨task, hAnswer⟩
  · exact hOwn
  · simp only [Task.answer, valuesOf] at hAnswer
    split at hAnswer <;> cases hAnswer

/-- What the evaluation of a list fails with when nothing that it asks for has failed: the form of a
keyword with these parts, or the value of the head applied to the values of the other elements. -/
inductive OwnError (host : Host) (evaluate : Evaluator) (frame : FrameId) (m : Machine) :
    (elements : List Expression) → Error → Machine → Prop where
  | form {keyword : Keyword} {parts : List Expression} {error : Error} {after : Machine}
      (hFails : Form.evaluateForm (valuesOf evaluate) frame keyword parts m =
      .error (.error error) after) :
      OwnError host evaluate frame m (.text keyword.name :: parts) error after
  | application {head : Expression} {rest : List Expression} {v : Value} {arguments : List Value}
      {m₁ m₂ after : Machine} {error : Error} (hKeyword : head.symbol?.bind Keyword.ofName? = none)
      (hHead : evaluate head frame m = .ok v m₁)
      (hArguments : rest.mapM (evaluate · frame) m₁ = .ok arguments m₂)
      (hFails : applyWith host (valuesOf evaluate) v arguments frame m₂ =
      .error (.error error) after) :
      OwnError host evaluate frame m (head :: rest) error after

/-- Forms that are evaluated in turn come to the same values, and fail with no error. -/
theorem mapM_valuesOf (evaluate : Evaluator) (frame : FrameId) (forms : List Expression)
    (m : Machine) :
    (∀ vs n, forms.mapM (valuesOf evaluate · frame) m = .ok vs n ↔
      forms.mapM (evaluate · frame) m = .ok vs n) ∧
      ∀ error n, forms.mapM (valuesOf evaluate · frame) m ≠ .error (.error error) n := by
  have hSequential : Sequential (fun _ => False) fun evaluate => forms.mapM (evaluate · frame) :=
    .mapM forms frame
  refine ⟨fun vs n => ?_, fun _ _ => hSequential.own⟩
  obtain ⟨course, -, hCourse⟩ := hSequential m
  beta_reduce at hCourse
  rw [hCourse, hCourse]
  constructor
  · intro hRun
    rw [course.run_of_finished (fun _ => answer_valuesOf) (by simp [hRun]), hRun]
  · exact course.run_of_ok (valuesOf_keepsValues evaluate)

theorem ownError_iff {host : Host} {evaluate : Evaluator} {frame : FrameId} {m after : Machine}
    {head : Expression} {rest : List Expression} {error : Error} :
    OwnError host evaluate frame m (head :: rest) error after ↔
      evaluateList host (valuesOf evaluate) head rest frame m = .error (.error error) after := by
  constructor
  · intro hOwn
    cases hOwn with
    | form hFails => simpa only [evaluateList, symbol?_bind_ofName?.2 rfl] using hFails
    | @application _ _ v arguments m₁ m₂ _ _ hKeyword hHead hArguments hFails =>
      have hValue : valuesOf evaluate head frame m = .ok v m₁ := by simp only [valuesOf, hHead]
      have hValues := ((mapM_valuesOf evaluate frame rest m₁).1 arguments m₂).2 hArguments
      simp only [evaluateList, hKeyword, Bind.bind, EStateM.bind, hValue, hValues]
      exact hFails
  · intro hFails
    simp only [evaluateList] at hFails
    cases hKeyword : head.symbol?.bind Keyword.ofName? with
    | some keyword =>
      rw [hKeyword] at hFails
      cases symbol?_bind_ofName?.1 hKeyword
      exact .form hFails
    | none =>
      simp only [hKeyword, Bind.bind, EStateM.bind] at hFails
      cases hHead : evaluate head frame m with
      | error interrupt n =>
        simp only [valuesOf, hHead] at hFails
        cases hFails
      | ok v n =>
        simp only [show valuesOf evaluate head frame m =
          .ok v n by simp only [valuesOf, hHead]] at hFails
        obtain ⟨hValues, hNoError⟩ := mapM_valuesOf evaluate frame rest n
        cases hArguments : rest.mapM (valuesOf evaluate · frame) n with
        | error interrupt n' =>
          rw [hArguments] at hFails
          cases hFails
          exact absurd hArguments (hNoError error after)
        | ok arguments n' =>
          rw [hArguments] at hFails
          exact .application hKeyword hHead ((hValues arguments n').1 hArguments) hFails

section

variable {host : Host} {limit : Nat}

/-- How many evaluations may be inside of each other does not matter as long as they are enough. -/
theorem evalAt_congr {nested nested' depth : Nat} (hNested : limit + 1 - depth < nested)
    (hNested' : limit + 1 - depth < nested') :
    evalAt host (some limit) nested depth = evalAt host (some limit) nested' depth := by
  induction nested generalizing nested' depth with
  | zero => omega
  | succ nested ih =>
    obtain ⟨nested', rfl⟩ := Nat.exists_eq_succ_of_ne_zero (Nat.ne_zero_of_lt hNested')
    rw [evalAt, evalAt]
    by_cases hBeyond : limit < depth
    · rw [stepAt_beyond host hBeyond, stepAt_beyond host hBeyond]
    · have hFewer : limit + 1 - (depth + 1) < limit + 1 - depth := by omega
      rw [ih (by omega : limit + 1 - (depth + 1) < nested) (by omega :
        limit + 1 - (depth + 1) < nested')]

theorem evalAt_eq_stepAt (host : Host) (limit depth : Nat) :
    evalAt host (some limit) (limit + 2) depth =
      stepAt host (some limit) depth (evalAt host (some limit) (limit + 2) (depth + 1)) := by
  have hEnough : limit + 1 - (depth + 1) < limit + 1 := by omega
  rw [evalAt, evalAt_congr hEnough (Nat.lt_succ_of_lt hEnough)]

/-- What the evaluation of a task at a depth fails with when nothing that it asks for has failed. -/
inductive Raises (host : Host) (limit depth : Nat) : Task → Error → Machine → Prop where
  | beyond {task : Task} (hBeyond : limit < depth) :
      Raises host limit depth task (.tooDeep limit) task.machine
  | symbol {name : String} {frame : FrameId} {m : Machine} (hWithin : depth ≤ limit)
      (hLiteral : literalContents? name = none) (hUnbound : m.store.lookup? frame name = none) :
      Raises host limit depth ⟨.text name, frame, m⟩ (.unbound name) m
  | list {elements : List Expression} {frame : FrameId} {m after : Machine} {error : Error}
      (hWithin : depth ≤ limit)
      (hOwn : OwnError host (evalAt host (some limit) (limit + 2) (depth + 1)) frame m elements
      error after) :
      Raises host limit depth ⟨.list elements, frame, m⟩ (error.inForm (.list elements)) after

variable {depth : Nat} {task sub : Task} {error : Error} {after : Machine}

/-- An error of its own is what a task fails with. -/
theorem Raises.fails (hRaises : Raises host limit depth task error after) :
    task.answer (evalAt host (some limit) (limit + 2) depth) = .error (.error error) after := by
  rw [evalAt_eq_stepAt, Task.answer]
  cases hRaises with
  | beyond hBeyond =>
    rw [stepAt_beyond host hBeyond]
    rfl
  | symbol hWithin hLiteral hUnbound =>
    rw [stepAt_within host hWithin]
    simp only [step, hLiteral, lookup_apply, hUnbound]
  | @list elements frame m _ error hWithin hOwn =>
    rw [stepAt_within host hWithin]
    obtain ⟨head, rest, rfl⟩ : ∃ head rest, elements = head :: rest := by
      cases hOwn <;> exact ⟨_, _, rfl⟩
    have hList := ownError_iff.1 hOwn
    obtain ⟨course, -, hCourse⟩ := sequential_evaluateList host head rest frame m
    beta_reduce at hCourse
    rw [hCourse] at hList
    have hFinished :
        Finished (course.run (valuesOf (evalAt host (some limit) (limit + 2) (depth + 1)))) := by
      simp [hList]
    have hRun := course.run_of_finished (fun _ => answer_valuesOf) hFinished
    simp only [step, mapError_apply, hCourse, hRun, hList, Interrupt.mapError]

/-- An evaluation that fails does so of its own, or in one that it asks for. -/
theorem raises_or_asks
    (hFails : task.answer (evalAt host (some limit) (limit + 2) depth) =
      .error (.error error) after) :
    Raises host limit depth task error after ∨ ∃ sub, Asks host limit depth task sub ∧
      sub.answer (evalAt host (some limit) (limit + 2) (depth + 1)) =
        .error (.error error) after := by
  obtain ⟨form, frame, m⟩ := task
  rcases Nat.lt_or_ge limit depth with hBeyond | hWithin
  · rw [evalAt_eq_stepAt, stepAt_beyond host hBeyond] at hFails
    cases hFails
    exact .inl (.beyond hBeyond)
  rw [evalAt_eq_stepAt, stepAt_within host hWithin] at hFails
  match form with
  | .integer _ | .float _ | .boolean _ | .list [] => cases hFails
  | .text token =>
    simp only [Task.answer, step] at hFails
    cases hLiteral : literalContents? token with
    | some contents =>
      rw [hLiteral] at hFails
      cases hFails
    | none =>
      simp only [hLiteral, lookup_apply] at hFails
      cases hFound : m.store.lookup? frame token with
      | some v =>
        rw [hFound] at hFails
        cases hFails
      | none =>
        rw [hFound] at hFails
        cases hFails
        exact .inl (.symbol hWithin hLiteral hFound)
  | .list (head :: rest) =>
    obtain ⟨course, hOwns, hCourse⟩ := sequential_evaluateList host head rest frame m
    simp only [Task.answer, step, mapError_apply, hCourse] at hFails
    rcases course.run_cases (evalAt host (some limit) (limit + 2) (depth + 1)) with
      hOwn | ⟨sub, interrupt, n, hSub, hEnds⟩
    · left
      have hSame := hOwn _ (valuesOf_keepsValues _)
      cases hRun : course.run (evalAt host (some limit) (limit + 2) (depth + 1)) with
      | ok v n =>
        rw [hRun] at hFails
        cases hFails
      | error interrupt n =>
        rw [hRun] at hFails hSame
        cases interrupt with
        | outOfLevels => cases hFails
        | error cause =>
          cases hFails
          exact .list hWithin (ownError_iff.2 ((hCourse _).trans hSame))
    · right
      have hRun := hEnds _ (fun _ _ _ => id) interrupt n hSub
      have hSettled :=
        (Settled.evalAt host (some limit) (limit + 2) (depth + 1) sub.form sub.frame).interrupt_eq
          hSub
        (.list (head :: rest))
      rw [hRun] at hFails
      simp only [hSettled] at hFails
      cases hFails
      refine ⟨sub, ?_, hSub⟩
      have hKeeps : Course.KeepsValues (evalAt host (some limit) (limit + 2) (depth + 1))
          (stopAt sub (evalAt host (some limit) (limit + 2) (depth + 1))) := by
        intro other v n hValue
        have hOther : sub ≠ other := by
          rintro rfl
          rw [hSub] at hValue
          cases hValue
        simpa only [Task.answer, stopAt, if_neg hOther] using hValue
      have hStopped : sub.answer (stopAt sub (evalAt host (some limit) (limit + 2) (depth + 1))) =
          .error .outOfLevels sub.machine := by simp only [Task.answer, stopAt, if_true]
      have hStop := hEnds _ hKeeps .outOfLevels sub.machine hStopped
      simp [Asks, stepAt_within host hWithin, step, finished_mapError, hCourse, hStop]

/-- What fails in an evaluation that is asked for fails the evaluation that asks for it. -/
theorem Asks.fails (hAsks : Asks host limit depth task sub)
    (hFails : sub.answer (evalAt host (some limit) (limit + 2) (depth + 1)) =
      .error (.error error) after) :
    task.answer (evalAt host (some limit) (limit + 2) depth) = .error (.error error) after := by
  have hWithin := hAsks.depth_le
  obtain ⟨form, frame, m⟩ := task
  rw [Asks, stepAt_within host hWithin] at hAsks
  rw [evalAt_eq_stepAt, stepAt_within host hWithin]
  match form with
  | .integer _ | .float _ | .boolean _ | .list [] => exact absurd trivial hAsks
  | .text token =>
    refine absurd ?_ hAsks
    simp only [step]
    cases literalContents? token with
    | some contents => trivial
    | none => exact finished_lookup frame token m
  | .list (head :: rest) =>
    obtain ⟨course, -, hCourse⟩ := sequential_evaluateList host head rest frame m
    beta_reduce at hCourse
    have hFinished : Finished (Task.answer ⟨.list (head :: rest), frame, m⟩
        (evalAt host (some limit) (limit + 2) depth)) := finished_evalAt (by omega) _ _ _
    rw [evalAt_eq_stepAt, stepAt_within host hWithin] at hFinished
    simp only [step, finished_mapError, hCourse, Task.answer] at hAsks hFinished ⊢
    rcases course.run_stopAt (evalAt host (some limit) (limit + 2) (depth + 1)) sub with
      hSame | hEnds
    · exact absurd (hSame ▸ hFinished) hAsks
    · have hSettled :=
        (Settled.evalAt host (some limit) (limit + 2) (depth + 1) sub.form sub.frame).interrupt_eq
        hFails (.list (head :: rest))
      rw [mapError_apply, hCourse, hEnds _ _ hFails]
      simp only [hSettled]

theorem Arises.fails (hArises : Arises host limit task depth sub)
    (hFails : sub.answer (evalAt host (some limit) (limit + 2) depth) =
      .error (.error error) after) :
    evalWithin host limit task.form task.frame task.machine = .error (.error error) after := by
  induction hArises with
  | outermost => rwa [evalAt_eq_evalWithin] at hFails
  | inside _ hAsks ih => exact ih (hAsks.fails hFails)

theorem Arises.exists_raises (hArises : Arises host limit task depth sub)
    (hFails : sub.answer (evalAt host (some limit) (limit + 2) depth) =
      .error (.error error) after) :
    ∃ depth' origin, Arises host limit task depth' origin ∧
      Raises host limit depth' origin error after := by
  -- Each evaluation that is asked for is one deeper, which is possible only up to the limit.
  induction hLeft : limit + 1 - depth generalizing depth sub with
  | zero =>
    rcases raises_or_asks hFails with hRaises | ⟨inner, hAsks, -⟩
    · exact ⟨depth, sub, hArises, hRaises⟩
    · have := hAsks.depth_le
      omega
  | succ left ih =>
    rcases raises_or_asks hFails with hRaises | ⟨inner, hAsks, hInner⟩
    · exact ⟨depth, sub, hArises, hRaises⟩
    · exact ih (hArises.inside hAsks) hInner (by omega)

/-- An evaluation fails with an error exactly if one of the evaluations on the way raises it. -/
theorem evalWithin_fails_iff {e : Expression} {frame : FrameId} {m : Machine} :
    evalWithin host limit e frame m = .error (.error error) after ↔
      ∃ depth origin, Arises host limit ⟨e, frame, m⟩ depth origin ∧
        Raises host limit depth origin error after := by
  constructor
  · intro hFails
    have hTask : Task.answer ⟨e, frame, m⟩ (evalAt host (some limit) (limit + 2) 0) =
        .error (.error error) after := by
      rwa [evalAt_eq_evalWithin]
    exact Arises.outermost.exists_raises hTask
  · rintro ⟨depth, origin, hArises, hRaises⟩
    exact hArises.fails hRaises.fails

end

end Evaluation

end EmbeddedLisp
