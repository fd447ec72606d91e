import EmbeddedLisp.Proofs.Evaluation.Coupling
import Mathlib.Data.Nat.Find

/-! How many levels an evaluation takes. An evaluation that comes to an end with some levels comes
to the same end with more of them. So a limit of depth changes no answer and leaves no other store:
it only cuts off the evaluations that are nested more deeply, and every evaluation that ends at all
has a least limit that lets it through. -/
namespace EmbeddedLisp

open EmbeddedLisp.Action

namespace Action

theorem get_bind {α : Type} (f : Machine → Action α) (m : Machine) : (get >>= f) m = f m m := rfl

/-- A lookup leaves the machine as it is. -/
theorem lookup_apply (f : FrameId) (name : String) (m : Machine) :
    lookup f name m = match m.store.lookup? f name with
      | some v => .ok v m
      | none => .error (.error (.unbound name)) m := by
  show (match m.store.lookup? f name with
    | some v => Pure.pure v
    | none => fail (.unbound name) : Action Value) m = _
  cases m.store.lookup? f name <;> rfl

/-- An assignment fails without a change, or is a definition in the frame that binds the name. -/
theorem assign_apply (f : FrameId) (name : String) (v : Value) (m : Machine) :
    assign f name v m = match m.store.owner? f name with
      | some owner => define owner name v m
      | none => .error (.error (.unbound name)) m := by
  show (match m.store.owner? f name with
    | some owner => define owner name v
    | none => fail (.unbound name) : Action Unit) m = _
  cases m.store.owner? f name <;> rfl

/-- A closure gets the number of those made before it. -/
theorem addClosure_apply (names : List String) (body : Expression) (f : FrameId) (m : Machine) :
    addClosure names body f m = .ok (.procedure (.closure ⟨m.store.closures, names, body, f⟩))
      { m with store := { m.store with closures := m.store.closures + 1 } } := rfl

end Action

namespace Evaluation

variable {α β : Type}

/-- Whether an action came to an end of its own, with a result or with an error. -/
def Finished : Outcome α → Prop
  | .error .outOfLevels _ => False
  | _ => True

/-- To be out of levels is the only end that is not one of the action's own. -/
theorem finished_iff {outcome : Outcome α} :
    Finished outcome ↔ ∀ after, outcome ≠ .error .outOfLevels after := by
  match outcome with
  | .ok x after => simp [Finished]
  | .error (.error error) after => simp [Finished]
  | .error .outOfLevels after => simp [Finished]

/-- A sequence comes to an end of its own if each of its parts does. -/
theorem finished_bind {a : Action α} {f : α → Action β} (hFirst : ∀ m, Finished (a m))
    (hSecond : ∀ x m, Finished (f x m)) (m : Machine) : Finished ((a >>= f) m) := by
  have hEnd := hFirst m
  simp only [Bind.bind, EStateM.bind]
  generalize a m = outcome at hEnd
  match outcome with
  | .ok x after => exact hSecond x after
  | .error (.error error) after => trivial
  | .error .outOfLevels after => exact hEnd

theorem finished_ofExcept (answer : Except Fault α) (m : Machine) :
    Finished (ofExcept answer m) := by
  cases answer <;> trivial

theorem finished_lookup (f : FrameId) (name : String) (m : Machine) :
    Finished (lookup f name m) := by
  rw [lookup_apply]
  split <;> trivial

theorem finished_assign (f : FrameId) (name : String) (v : Value) (m : Machine) :
    Finished (assign f name v m) := by
  rw [assign_apply]
  split <;> trivial

theorem finished_forM {ι : Type} (items : List ι) {a : ι → Action PUnit}
    (hEach : ∀ item m, Finished (a item m)) (m : Machine) : Finished (items.forM a m) := by
  induction items generalizing m with
  | nil => trivial
  | cons item rest ih => exact finished_bind (hEach item) (fun _ => ih) m

/-- No procedure evaluates a form, so each call comes to an end. -/
theorem finished_callNative (host : Host) (native : Native) (arguments : List Value) (f : FrameId)
    (m : Machine) : Finished (callNative host native arguments f m) := by
  cases native with
  | builtin procedure => exact finished_ofExcept _ m
  | host name =>
    simp only [callNative]
    cases host.procedure? name with
    | none => trivial
    | some procedure =>
      refine finished_bind (a := get) (fun _ => trivial) (fun before => ?_) m
      refine finished_bind (finished_ofExcept _) fun answer => ?_
      exact finished_bind (finished_forM _ fun _ _ => trivial) fun _ _ => trivial

end Evaluation

namespace Coupling

open Evaluation (Finished)

/-- The coupling of a run with itself, up to what it is interrupted by. -/
def identity (Interrupts : Interrupt → Interrupt → Prop) (ahead : Prop) : Coupling where
  World := Unit
  Extends _ _ := True
  Machines _ m n := m = n
  Frames _ f g := f = g
  Values _ v v' := v = v'
  Interrupts := Interrupts
  Forms _ := True
  ahead := ahead

section

variable {Interrupts : Interrupt → Interrupt → Prop} {ahead : Prop}

/-- Where an action comes to an end, the interrupts that are not errors do not matter. -/
theorem identity_together {α : Type} {R : Unit → α → α → Prop}
    (hError : ∀ error, Interrupts (.error error) (.error error)) (hRefl : ∀ x, R () x x)
    {a : Action α} (hFinished : ∀ m, Finished (a m)) :
    (identity Interrupts ahead).Together () R a a := by
  rintro m _ rfl
  have hEnd := hFinished m
  generalize a m = outcome at hEnd
  match outcome with
  | .ok x after => exact .done () trivial rfl (hRefl x)
  | .error (.error error) after => exact .stopped () trivial rfl (hError error)
  | .error .outOfLevels after => exact hEnd.elim

theorem identity_entries {entries entries' : List (String × Value)}
    (hEntries : (identity Interrupts ahead).Entries () entries entries') : entries = entries' := by
  induction hEntries with
  | nil => rfl
  | cons hEntry _ ih => rw [Prod.ext hEntry.1 hEntry.2, ih]

/-- An action next to itself, where it may be interrupted in any way. -/
theorem identity_self {α : Type} {R : Unit → α → α → Prop} (hInterrupts : ∀ i, Interrupts i i)
    (hRefl : ∀ x, R () x x) (a : Action α) : (identity Interrupts ahead).Together () R a a := by
  intro m n hMachines
  cases hMachines
  cases a m with
  | ok x after => exact .done () trivial rfl (hRefl x)
  | error i after => exact .stopped () trivial rfl (hInterrupts i)

/-- Everything that the evaluator does is next to itself, and so it is enough to look at the
interrupts and at the calls of native procedures. -/
theorem identity_lawful {caller : Evaluation.Caller}
    (hError : ∀ error, Interrupts (.error error) (.error error))
    (hInForm : ∀ {i j} e, Interrupts i j →
      Interrupts (i.mapError (Error.inForm e)) (j.mapError (Error.inForm e)))
    (hCalls : ∀ native arguments f, (identity Interrupts ahead).Together () (fun _ v v' => v = v')
      (caller native arguments f) (caller native arguments f)) :
    (identity Interrupts ahead).Lawful caller where
  error := hError
  inForm := hInForm
  refl _ := trivial
  trans _ _ := trivial
  frames_mono _ hFrames := hFrames
  values_mono _ hValues := hValues
  form_head _ _ := trivial
  form_rest _ _ _ := trivial
  form_body _ := trivial
  quoted _ _ := rfl
  kind hValues := congrArg Value.kind hValues.symm
  truth hValues := congrArg Value.isTrue hValues.symm
  closure := by
    rintro _ k _ rfl
    exact ⟨k, rfl, rfl, rfl, trivial⟩
  native := by
    rintro _ _ _ rfl
    rfl
  record := by
    rintro _ event _ (⟨name, hValues⟩ | ⟨name, hValues⟩ | _)
    · cases hValues
      exact identity_together hError (fun _ => trivial) fun _ => trivial
    · cases hValues
      exact identity_together hError (fun _ => trivial) fun _ => trivial
    · exact identity_together hError (fun _ => trivial) fun _ => trivial
  lookup := by
    rintro _ f _ name rfl _ _
    exact identity_together hError (fun _ => rfl) (Evaluation.finished_lookup f name)
  define := by
    rintro _ f _ v _ name rfl rfl
    exact identity_together hError (fun _ => trivial) fun _ => trivial
  assign := by
    rintro _ f _ v _ name e rfl rfl _
    exact identity_together hError (fun _ => trivial) (Evaluation.finished_assign f name v)
  child := by
    rintro _ f _ entries _ rfl hEntries
    cases identity_entries hEntries
    exact identity_together hError (fun _ => rfl) fun _ => trivial
  call := by
    rintro _ k _ entries _ hClosures hEntries
    cases hClosures
    cases identity_entries hEntries
    exact identity_together hError (fun _ => rfl) fun _ => trivial
  addClosure := by
    rintro _ f _ names body rfl _ _ _
    exact identity_together hError (fun _ => rfl) fun _ => trivial
  callNative := by
    rintro _ f _ native arguments _ rfl _ hArguments
    cases List.forall₂_eq_eq_eq ▸ hArguments
    exact hCalls native arguments f

end

/-- A run that ends is followed by any other one that may only have more levels. -/
theorem eq_of_identity {left right : Outcome Value}
    (hOutcomes : (identity Eq True).Outcomes () (identity Eq True).Values left right)
    (hFinished : Finished left) : right = left := by
  cases hOutcomes with
  | done _ _ hMachines hResult =>
      cases hMachines
      cases hResult
      rfl
  | stopped _ _ hMachines hInterrupts =>
      cases hMachines
      cases hInterrupts
      rfl
  | outrun => exact hFinished.elim

end Coupling

namespace Evaluation

variable {α : Type} {caller : Caller} {e : Expression} {frame : FrameId} {m : Machine}

/-- More levels do not change how an evaluation ends. -/
theorem eval_add {levels : Nat} (more : Nat) (hFinished : Finished (eval caller levels e frame m)) :
    eval caller (levels + more) e frame m = eval caller levels e frame m := by
  have hLawful : (Coupling.identity Eq True).Lawful caller :=
    Coupling.identity_lawful (fun _ => rfl) (fun _ => congrArg _)
      fun _ _ _ => Coupling.identity_self (fun _ => rfl) (fun _ => rfl) _
  have hTogether := hLawful.eval levels more (.inr trivial)
  have hOutcomes := hTogether (w := ()) (e := e) trivial (rfl : frame = frame) (rfl : m = m)
  exact Coupling.eq_of_identity hOutcomes hFinished

/-- The same for a number of levels that is not less. -/
theorem eval_of_le {levels levels' : Nat} (hLe : levels ≤ levels')
    (hFinished : Finished (eval caller levels e frame m)) :
    eval caller levels' e frame m = eval caller levels e frame m := by
  rw [← Nat.add_sub_of_le hLe]
  exact eval_add _ hFinished

/-- Some round has levels enough, by induction on the rounds that are missing. -/
theorem evalFrom_of_finished {levels : Nat} (rounds : Nat)
    (hFinished : Finished (eval caller (levels + rounds * ampleLevels) e frame m)) :
    evalFrom caller e frame m levels =
      some (eval caller (levels + rounds * ampleLevels) e frame m) := by
  induction rounds generalizing levels with
  | zero =>
    rw [Nat.zero_mul, Nat.add_zero] at hFinished ⊢
    rw [evalFrom]
    split
    · rename_i hRun
      rw [hRun] at hFinished
      exact hFinished.elim
    · rfl
  | succ rounds ih =>
    have hLevels : levels + (rounds + 1) * ampleLevels =
        levels + ampleLevels + rounds * ampleLevels := by
      rw [Nat.succ_mul]
      omega
    rw [hLevels] at hFinished ⊢
    rw [evalFrom]
    split
    · exact ih hFinished
    · rename_i hRun
      rw [Nat.add_assoc, eval_add _ (finished_iff.2 hRun)]

theorem evalFrom_eq_some {levels : Nat} {outcome : Outcome Value}
    (hRun : evalFrom caller e frame m levels = some outcome) :
    Finished outcome ∧ ∃ enough, outcome = eval caller enough e frame m := by
  refine evalFrom.partial_correctness caller e frame m
    (fun _ outcome => Finished outcome ∧ ∃ enough, outcome = eval caller enough e frame m)
    ?_ _ _ hRun
  intro search ih levels outcome hStep
  split at hStep
  · exact ih _ _ hStep
  · rename_i hRun
    cases hStep
    exact ⟨finished_iff.2 hRun, levels, rfl⟩

/-- With enough levels an evaluation is the one without a limit, -/
theorem evalUnlimited_of_finished {levels : Nat}
    (hFinished : Finished (eval caller levels e frame m)) :
    evalUnlimited caller e frame m = eval caller levels e frame m := by
  have hLe : levels ≤ ampleLevels + levels * ampleLevels :=
    Nat.le_trans (Nat.le_mul_of_pos_right levels (by decide)) (Nat.le_add_left _ _)
  have hSame := eval_of_le hLe hFinished
  rw [evalUnlimited, evalFrom_of_finished levels (hSame ▸ hFinished), hSame]
  rfl

/-- An evaluation without a limit ends as it ends with enough levels. -/
theorem exists_levels (hFinished : Finished (evalUnlimited caller e frame m)) :
    ∃ levels, evalUnlimited caller e frame m = eval caller levels e frame m := by
  unfold evalUnlimited at hFinished ⊢
  cases hRun : evalFrom caller e frame m ampleLevels with
  | none =>
    rw [hRun] at hFinished
    exact hFinished.elim
  | some outcome => exact (evalFrom_eq_some hRun).2

/-- and where no number is enough there is none. -/
theorem evalUnlimited_of_endless (hEndless : ∀ levels, ¬Finished (eval caller levels e frame m)) :
    evalUnlimited caller e frame m = .error .outOfLevels m := by
  unfold evalUnlimited
  cases hRun : evalFrom caller e frame m ampleLevels with
  | none => rfl
  | some outcome =>
    obtain ⟨hFinished, enough, rfl⟩ := evalFrom_eq_some hRun
    exact absurd hFinished (hEndless enough)

/-- A limit lets through what ends with one level more than it, -/
theorem evalWithin_of_finished {limit : Nat}
    (hFinished : Finished (eval caller (limit + 1) e frame m)) :
    evalWithin caller limit e frame m = eval caller (limit + 1) e frame m := by
  simp only [evalWithin, EStateM.adaptExcept]
  cases hRun : eval caller (limit + 1) e frame m with
  | ok v after => rfl
  | error i after =>
    cases i with
    | error => rfl
    | outOfLevels =>
      rw [hRun] at hFinished
      exact hFinished.elim

/-- and cuts off everything else. -/
theorem evalWithin_of_not_finished {limit : Nat}
    (hNot : ¬Finished (eval caller (limit + 1) e frame m)) :
    ∃ after, evalWithin caller limit e frame m = .error (.error (.tooDeep limit)) after := by
  simp only [finished_iff, not_forall, not_not] at hNot
  obtain ⟨after, hRun⟩ := hNot
  exact ⟨after, by simp only [evalWithin, EStateM.adaptExcept, hRun]⟩

/-- The least number of levels that an evaluation ends with. The first form takes one. -/
theorem exists_least_levels (hFinished : Finished (evalUnlimited caller e frame m)) :
    ∃ least, ∀ levels, Finished (eval caller levels e frame m) ↔ least + 1 ≤ levels := by
  classical
  obtain ⟨enough, hEnough⟩ := exists_levels hFinished
  have hExists : ∃ levels, Finished (eval caller levels e frame m) := ⟨enough, hEnough ▸ hFinished⟩
  have hFind := Nat.find_spec hExists
  have hPositive : Nat.find hExists ≠ 0 := by
    intro hZero
    rw [hZero] at hFind
    exact hFind
  obtain ⟨least, hLeast⟩ := Nat.exists_eq_succ_of_ne_zero hPositive
  refine ⟨least, fun levels => ⟨fun hLevels => ?_, fun hLe => ?_⟩⟩
  · rw [← Nat.succ_eq_add_one, ← hLeast]
    exact Nat.find_min' hExists hLevels
  · rw [← Nat.succ_eq_add_one, ← hLeast] at hLe
    rw [eval_of_le hLe hFind]
    exact hFind

/-- A limit of depth only cuts. What an evaluation within a limit comes to, it comes to within every
larger limit and without any, from and to the same machines. And an evaluation that ends without a
limit has a least limit that lets it through; all smaller ones are reported as exceeded. -/
theorem limit_only_cuts (host : Host) (e : Expression) (frame : FrameId) (m : Machine) :
    (∀ limit larger, limit ≤ larger →
      (∀ exceeded after, evalWithin host limit e frame m ≠
        .error (.error (.tooDeep exceeded)) after) →
      evalWithin host larger e frame m = evalWithin host limit e frame m ∧
        evalUnlimited host e frame m = evalWithin host limit e frame m) ∧
    (Finished (evalUnlimited host e frame m) → ∃ threshold, ∀ limit,
      (threshold ≤ limit → evalWithin host limit e frame m = evalUnlimited host e frame m) ∧
        (limit < threshold →
          ∃ after, evalWithin host limit e frame m = .error (.error (.tooDeep limit)) after)) := by
  constructor
  · intro limit larger hLe hWithin
    have hFinished : Finished (eval host (limit + 1) e frame m) := by
      by_contra hNot
      obtain ⟨after, hExceeded⟩ := evalWithin_of_not_finished hNot
      exact hWithin limit after hExceeded
    have hSame := eval_of_le (Nat.succ_le_succ hLe) hFinished
    rw [evalWithin_of_finished hFinished, evalUnlimited_of_finished hFinished,
      evalWithin_of_finished (hSame ▸ hFinished)]
    exact ⟨hSame, rfl⟩
  · intro hFinished
    obtain ⟨threshold, hLeast⟩ := exists_least_levels hFinished
    refine ⟨threshold, fun limit => ⟨fun hLe => ?_, fun hLess => ?_⟩⟩
    · have hEnough := (hLeast (limit + 1)).2 (Nat.succ_le_succ hLe)
      rw [evalWithin_of_finished hEnough, evalUnlimited_of_finished hEnough]
    · apply evalWithin_of_not_finished
      rw [hLeast]
      omega

end Evaluation

end EmbeddedLisp
