import EmbeddedLisp.Proofs.Evaluation.Failures
import EmbeddedLisp.Proofs.Interpreter.Pieces

/-! Programs as forms. The forms of a text that is read to its end are evaluated like the one form
that has them in sequence. There they stand one deeper, which shows in nothing but the limit that is
exceeded, and the list around them adds nothing to an error that has come out of one of them. -/
namespace EmbeddedLisp

open EmbeddedLisp.Action Evaluation Form

/-- What interrupts an evaluation that is given as many levels as a limit of depth allows for. -/
def Interrupt.within (limit : Nat) : Interrupt → Interrupt
  | .outOfLevels => .error (.tooDeep limit)
  | .error cause => .error cause

/-- An error as it is if the limit of depth is greater by one. -/
def Error.oneDeeper : Error → Error
  | .tooDeep limit => .tooDeep (limit + 1)
  | error => error

/-- Only errors of depth speak of a limit. -/
theorem Error.Raised.oneDeeper {error : Error} (hRaised : error.Raised) :
    error.oneDeeper = error := by
  cases hRaised <;> rfl

namespace Evaluation

variable {host : Host} {frame : FrameId}

theorem evalWithin_eq (host : Host) (limit : Nat) (e : Expression) (frame : FrameId) :
    evalWithin host limit e frame = (eval host (limit + 1) e frame).adaptExcept
      (.within limit) := by
  funext m
  simp only [evalWithin, EStateM.adaptExcept]
  cases eval host (limit + 1) e frame m with
  | ok v after => rfl
  | error interrupt after => cases interrupt <;> rfl

/-- A change to what interrupts the forms of a body is a change to what interrupts the body. -/
theorem evaluateBody_adaptExcept {evaluate evaluate' : Evaluator} {f : Interrupt → Interrupt}
    (hEach : ∀ e, evaluate' e frame = (evaluate e frame).adaptExcept f) (forms : List Expression) :
    evaluateBody evaluate' frame forms = (evaluateBody evaluate frame forms).adaptExcept f := by
  have hFold (v : Value) : forms.foldlM (fun _ e => evaluate' e frame) v =
      (forms.foldlM (fun _ e => evaluate e frame) v).adaptExcept f := by
    induction forms generalizing v with
    | nil => rfl
    | cons e rest ih =>
      rw [List.foldlM_cons, List.foldlM_cons, adaptExcept_bind, hEach]
      congr 1
      funext v
      exact ih v
  exact hFold .nil

/-- With a number of levels there is no error of depth. -/
theorem raised_of_evaluateBody {levels : Nat} {forms : List Expression} {m after : Machine}
    {error : Error}
    (hFails : evaluateBody (eval host levels) frame forms m = .error (.error error) after) :
    error.Raised := by
  have hBody : Sequential (fun _ => False) fun evaluate => evaluateBody evaluate frame forms :=
    .evaluateBody forms frame
  obtain ⟨course, hOwns, hCourse⟩ := hBody m
  beta_reduce at hCourse
  rw [hCourse] at hFails
  obtain hNone | ⟨task, hTask⟩ := course.own_or_answer hOwns hFails
  · exact hNone.elim
  · exact raised_of_eval hTask

theorem evalWithin_sequence (host : Host) (limit : Nat) (forms : List Expression)
    (frame : FrameId) :
    evalWithin host (limit + 1) (Keyword.sequence.form forms) frame =
      (evaluateBody (eval host (limit + 1)) frame forms).adaptExcept (.within (limit + 1)) := by
  have hSettled : Settled (evaluateBody (eval host (limit + 1)) frame forms) :=
    .evaluateBody (Settled.eval host (limit + 1)) frame forms
  have hStep : eval host (limit + 2) (Keyword.sequence.form forms) frame =
      evaluateBody (eval host (limit + 1)) frame forms := by
    rw [eval, step_form]
    exact hSettled _
  rw [evalWithin_eq, hStep]

/-- Forms in turn within a limit are the forms inside of a sequence whose limit is one more. -/
theorem evaluateBody_oneDeeper {limit : Nat} (forms : List Expression) :
    mapError Error.oneDeeper (evaluateBody (evalWithin host limit) frame forms) =
      (evaluateBody (eval host (limit + 1)) frame forms).adaptExcept (.within (limit + 1)) := by
  rw [evaluateBody_adaptExcept fun e => evalWithin_eq host limit e frame]
  funext m
  simp only [mapError_apply, EStateM.adaptExcept]
  cases hBody : evaluateBody (eval host (limit + 1)) frame forms m with
  | ok v after => rfl
  | error interrupt after =>
    cases interrupt with
    | outOfLevels => rfl
    | error error =>
      have hSame := (raised_of_evaluateBody hBody).oneDeeper
      simp only [Interrupt.within, Interrupt.mapError, hSame]

end Evaluation

namespace Interpreter

variable {i : Interpreter} {host : Host} {text : String} {forms : List Expression}

theorem items_eq_map_ok {items : List (Except SyntaxError Expression)}
    (hItems : items.mapM id = .ok forms) :
    items = forms.map .ok := by
  induction items generalizing forms with
  | nil =>
    cases hItems
    rfl
  | cons item rest ih =>
    cases item with
    | error p => cases hItems
    | ok e =>
      rw [List.mapM_cons] at hItems
      cases hRest : rest.mapM id with
      | error p =>
        rw [hRest] at hItems
        cases hItems
      | ok es =>
        rw [hRest] at hItems
        cases hItems
        rw [List.map_cons, ← ih hRest]

/-- A text that is read to its end is evaluated as a body in the global frame. -/
theorem evalSource_eq_evaluateBody (hParse : Reader.parseProgram i.options.reading text = .ok forms)
    (host : Host) :
    i.evalSource host text = evaluateBody (Interpreter.evaluate host i.options.maxDepth)
      i.globalFrame forms := by
  rw [evalSource_eq, items_eq_map_ok hParse, evaluateItems, List.foldlM_map]
  rfl

/-- A program is the form that has its forms in sequence. Without a limit of depth, if the one comes
to an end then so does the other, with the same value or the same error and on the same machine.
With a limit, what the program comes to is what the form comes to within a limit that is greater by
one, except that it is the greater limit then that is exceeded. -/
theorem program_is_sequence (i : Interpreter) (host : Host) {text : String}
    {forms : List Expression} (hParse : Reader.parseProgram i.options.reading text = .ok forms) :
    let program := i.evalSource host text
    let whole := Keyword.sequence.form forms
    (i.options.maxDepth = none → SameEnds program (evalUnlimited host whole i.globalFrame)) ∧
      ∀ limit, i.options.maxDepth = some limit →
        evalWithin host (limit + 1) whole i.globalFrame = mapError Error.oneDeeper program ∧
          ∀ exceeded m after, program m = .error (.error (.tooDeep exceeded)) after →
          exceeded = limit := by
  intro program whole
  have hProgram : program = _ := evalSource_eq_evaluateBody hParse host
  refine ⟨fun hUnlimited => ?_, fun limit hLimit => ?_⟩
  · rw [hUnlimited] at hProgram
    rw [hProgram]
    exact (sameEnds_sequence host forms i.globalFrame).symm
  · rw [hLimit] at hProgram
    have hDeeper : evalWithin host (limit + 1) whole i.globalFrame =
        mapError Error.oneDeeper program := by
      rw [hProgram]
      exact (evalWithin_sequence host limit forms i.globalFrame).trans
        (evaluateBody_oneDeeper forms).symm
    refine ⟨hDeeper, fun exceeded m after hFails => ?_⟩
    have hWhole : evalWithin host (limit + 1) whole i.globalFrame m =
        .error (.error (.tooDeep (exceeded + 1))) after := by
      rw [hDeeper, mapError_apply, hFails]
      rfl
    rcases tooDeep_or_raised hWhole with hSame | hRaised
    · injection hSame with hSame
      omega
    · cases hRaised

/-- A program within a limit that its second form exceeds. -/
theorem program_is_sequence_exceeded :
    let i : Interpreter := ⟨{ maxDepth := some 0 }, 0⟩
    let forms : List Expression :=
      [.list [.text "quote", .text "x"], .list [.text "not", .boolean true]]
    let m : Machine := ⟨⟨#[⟨.empty, none⟩], 0⟩, []⟩
    Reader.parseProgram i.options.reading "(quote x) (not #t)" = .ok forms ∧
      i.evalSource ([] : Host) "(quote x) (not #t)" m = .error (.error (.tooDeep 0)) m ∧
      evalWithin ([] : Host) 1 (Keyword.sequence.form forms) 0 m =
      .error (.error (.tooDeep 1)) m := by
  intro i forms m
  have hParse : Reader.parseProgram i.options.reading "(quote x) (not #t)" = .ok forms :=
    Reader.items_eq_ok_iff.2 ⟨[.list [.atom "quote", .atom "x"], .list [.atom "not", .atom "#t"]],
      by decide, rfl, nofun⟩
  have hProgram : i.evalSource ([] : Host) "(quote x) (not #t)" m =
      .error (.error (.tooDeep 0)) m := by
    rw [evalSource_eq_evaluateBody hParse]
    rfl
  refine ⟨hParse, hProgram, ?_⟩
  rw [((program_is_sequence i [] hParse).2 0 rfl).1, mapError_apply, hProgram]
  rfl

end Interpreter

end EmbeddedLisp
