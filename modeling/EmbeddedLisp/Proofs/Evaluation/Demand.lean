import EmbeddedLisp.Proofs.Evaluation.Unfolding
import EmbeddedLisp.Proofs.Procedure.Rounds

/-! What the evaluation of a form asks for, form by form. A step asks for one evaluation after
another, in frames and on machines that come from the values of the earlier ones. So it can be said
of each form which evaluations are inside of it, and they are all at the next depth. -/
namespace EmbeddedLisp

open EmbeddedLisp.Action Form

namespace Evaluation

variable {α β : Type}

/-- A binding that gives a form to a symbol that is not yet taken. -/
def FreshBinding (entries : List (String × Value)) (name : String) (e binding : Expression) :
    Prop :=
  binding = .list [.text name, e] ∧ literalContents? name = none ∧ ¬entries.any (·.1 = name)

/-- The evaluations that the form of a keyword asks for. Each comes after evaluations that have a
value, on the machine that these have left. -/
inductive FormDemands (evaluate : Evaluator) (frame : FrameId) (m : Machine) :
    Keyword → List Expression → Task → Prop where
  | test {test consequent alternative : Expression} :
      FormDemands evaluate frame m .branch [test, consequent, alternative] ⟨test, frame, m⟩
  /-- One of two alternatives, and never the other one. -/
  | chosen {test consequent alternative : Expression} {v : Value} {n : Machine}
      (hTest : evaluate test frame m = .ok v n) :
      FormDemands evaluate frame m .branch [test, consequent, alternative]
        ⟨if v.isTrue then consequent else alternative, frame, n⟩
  | definition {name : String} {e : Expression} (hSymbol : literalContents? name = none) :
      FormDemands evaluate frame m .define [.text name, e] ⟨e, frame, m⟩
  | assignment {name : String} {e : Expression} (hSymbol : literalContents? name = none) :
      FormDemands evaluate frame m .assign [.text name, e] ⟨e, frame, m⟩
  | inSequence {before behind : List Expression} {e : Expression} {v : Value} {n : Machine}
      (hBefore : evaluateBody evaluate frame before m = .ok v n) :
      FormDemands evaluate frame m .sequence (before ++ e :: behind) ⟨e, frame, n⟩
  /-- The initial form of a name that is not yet taken. -/
  | initial {before behind body : List Expression} {binding e first : Expression} {name : String}
      {entries : List (String × Value)} {n : Machine}
      (hBefore : evaluateBindings evaluate frame [] before m = .ok entries n)
      (hBinds : FreshBinding entries name e binding) :
      FormDemands evaluate frame m .bind (.list (before ++ binding :: behind) :: first :: body)
      ⟨e, frame, n⟩
  | inBody {bindings before behind : List Expression} {e : Expression}
      {entries : List (String × Value)} {v : Value}
      {inner : FrameId} {m₁ m₂ n : Machine}
      (hBindings : evaluateBindings evaluate frame [] bindings m = .ok entries m₁)
      (hOpened : addFrame entries (some frame) m₁ = .ok inner m₂)
      (hBefore : evaluateBody evaluate inner before m₂ = .ok v n) :
      FormDemands evaluate frame m .bind (.list bindings :: (before ++ e :: behind)) ⟨e, inner, n⟩
  /-- A form of a conjunction, while all before it are true. -/
  | conjunct {before behind : List Expression} {e : Expression} {v : Value} {n : Machine}
      (hBefore : evaluateUntil evaluate frame false (.boolean true) before m = .ok v n)
      (hOpen : v.isTrue ≠ false) :
      FormDemands evaluate frame m .conjunction (before ++ e :: behind) ⟨e, frame, n⟩
  /-- A form of a disjunction, while none before it is true. -/
  | disjunct {before behind : List Expression} {e : Expression} {v : Value} {n : Machine}
      (hBefore : evaluateUntil evaluate frame true (.boolean false) before m = .ok v n)
      (hOpen : v.isTrue ≠ true) :
      FormDemands evaluate frame m .disjunction (before ++ e :: behind) ⟨e, frame, n⟩

/-- The evaluations that the evaluation of a task asks for. -/
inductive Demands (evaluate : Evaluator) : Task → Task → Prop where
  | form {keyword : Keyword} {parts : List Expression} {frame : FrameId} {m : Machine} {sub : Task}
      (hForm : FormDemands evaluate frame m keyword parts sub) :
      Demands evaluate ⟨.list (.text keyword.name :: parts), frame, m⟩ sub
  | head {head : Expression} {rest : List Expression} {frame : FrameId} {m : Machine}
      (hKeyword : head.symbol?.bind Keyword.ofName? = none) :
      Demands evaluate ⟨.list (head :: rest), frame, m⟩ ⟨head, frame, m⟩
  /-- An argument, after the head and the arguments on its left. -/
  | argument {head e : Expression} {before behind : List Expression} {v : Value} {vs : List Value}
      {frame : FrameId} {m m₁ n : Machine} (hKeyword : head.symbol?.bind Keyword.ofName? = none)
      (hHead : evaluate head frame m = .ok v m₁)
      (hBefore : before.mapM (evaluate · frame) m₁ = .ok vs n) :
      Demands evaluate ⟨.list (head :: (before ++ e :: behind)), frame, m⟩ ⟨e, frame, n⟩
  /-- The body of a closure, in a frame that binds its parameters. -/
  | body {head : Expression} {rest : List Expression} {k : Closure} {vs : List Value}
      {frame inner : FrameId}
      {m m₁ m₂ n : Machine} (hKeyword : head.symbol?.bind Keyword.ofName? = none)
      (hHead : evaluate head frame m = .ok (.procedure (.closure k)) m₁)
      (hArguments : rest.mapM (evaluate · frame) m₁ = .ok vs m₂)
      (hCount : k.parameters.length = vs.length)
      (hOpened : (do
        record (.applying k.parameters vs.length)
        addFrame (k.parameters.zip vs) (some k.frame)) m₂ = .ok inner n) :
      Demands evaluate ⟨.list (head :: rest), frame, m⟩ ⟨k.body, inner, n⟩

variable {evaluate : Evaluator} {sub : Task} {frame : FrameId} {m : Machine}

/-- A sequence has a value exactly if both of its parts have one. -/
theorem bind_eq_ok_iff {a : Action α} {f : α → Action β} {y : β} {n : Machine} :
    (a >>= f) m = .ok y n ↔ ∃ x m₁, a m = .ok x m₁ ∧ f x m₁ = .ok y n := by
  simp only [Bind.bind, EStateM.bind]
  cases a m <;> simp

theorem FreshBinding.evaluateBindings_cons {entries : List (String × Value)} {name : String}
    {e binding : Expression} (hBinds : FreshBinding entries name e binding) (evaluate : Evaluator)
    (f : FrameId) (rest : List Expression) :
    evaluateBindings evaluate f entries (binding :: rest) =
      evaluate e f >>= fun v => evaluateBindings evaluate f (entries ++ [(name, v)]) rest := by
  obtain ⟨rfl, hSymbol, hFresh⟩ := hBinds
  have hName : (Expression.text name).symbol? = some name :=
    Expression.symbol?_eq_some_iff.2 ⟨rfl, hSymbol⟩
  simp only [evaluateBindings, expectSymbol, hName, pure_bind, hFresh]
  rfl

/-- All other bindings are rejected. -/
theorem exists_rejected_binding {entries : List (String × Value)} {binding : Expression}
    (hNot : ∀ name e, ¬FreshBinding entries name e binding) :
    ∃ fault, ∀ evaluate f rest, evaluateBindings evaluate f entries (binding :: rest) =
      reject fault := by
  by_cases hShape : ∃ target e, binding = .list [target, e]
  · obtain ⟨target, e, rfl⟩ := hShape
    cases hName : target.symbol? with
    | none =>
      refine ⟨.notSymbol .binding target, fun evaluate f rest => ?_⟩
      simp only [evaluateBindings, expectSymbol, hName]
      rfl
    | some name =>
      obtain ⟨rfl, hSymbol⟩ := Expression.symbol?_eq_some_iff.1 hName
      have hTaken : entries.any (·.1 = name) := by
        by_contra hFresh
        exact hNot name e ⟨rfl, hSymbol, hFresh⟩
      refine ⟨.duplicateBinding name, fun evaluate f rest => ?_⟩
      simp only [evaluateBindings, expectSymbol, hName, pure_bind, hTaken, if_true]
  · refine ⟨.malformedBinding binding, fun evaluate f rest => ?_⟩
    rw [evaluateBindings]
    intro target e hSame
    exact hShape ⟨target, e, hSame⟩

theorem finished_expectSymbol (binder : Binder) (e : Expression) (n : Machine) :
    Finished (expectSymbol binder e n) := by
  unfold expectSymbol
  cases e.symbol? <;> trivial

theorem finished_parameterNames (names : List String) (parameters : List Expression) (n : Machine) :
    Finished (parameterNames names parameters n) := by
  induction parameters generalizing names n with
  | nil => trivial
  | cons e rest ih =>
    refine finished_bind (finished_expectSymbol .parameter e) (fun name n => ?_) n
    split
    · trivial
    · exact ih _ n

theorem finished_makeClosure (parameters body : List Expression) (f : FrameId) (n : Machine) :
    Finished (makeClosure parameters body f n) :=
  finished_bind (finished_parameterNames [] parameters)
    (fun _ _ => by rw [addClosure_apply]; trivial) n

/-- Whether an action over an evaluator comes to ask it for a task. It does not end then if the
evaluator stops there. -/
def Reaches (evaluate : Evaluator) (sub : Task) (action : Evaluator → Action α) (m : Machine) :
    Prop :=
  ¬Finished (action (stopAt sub evaluate) m)

/-- An action that does not stop at a task does as it would without. -/
theorem Course.run_stopAt_of_finished {course : Course α}
    (hFinished : Finished (course.run (stopAt sub evaluate))) :
    course.run (stopAt sub evaluate) = course.run evaluate := by
  induction course with
  | ended outcome => rfl
  | asks asked next ih =>
    have hOther : sub ≠ asked := by
      intro hSame
      subst hSame
      simp [run, Task.answer, stopAt] at hFinished
    have hAnswer : asked.answer (stopAt sub evaluate) = asked.answer evaluate := by
      simp only [Task.answer, stopAt, if_neg hOther]
    simp only [run, hAnswer] at hFinished ⊢
    cases hRun : asked.answer evaluate with
    | ok v n =>
      rw [hRun] at hFinished
      exact ih v n hFinished
    | error interrupt n => rfl

theorem not_reaches_const {action : Action α} (hFinished : Finished (action m)) :
    ¬Reaches evaluate sub (fun _ => action) m :=
  not_not.2 hFinished

/-- A sequence comes to ask for a task in its first part, or after that has ended with a value. -/
theorem reaches_bind {a : Evaluator → Action α} {b : α → Evaluator → Action β}
    {Own : Interrupt → Prop} (hSequential : Sequential Own a) :
    Reaches evaluate sub (fun evaluate => a evaluate >>= fun x => b x evaluate) m ↔
      Reaches evaluate sub a m ∨ ∃ x n, a evaluate m = .ok x n ∧ Reaches evaluate sub (b x) n := by
  by_cases hFinished : Finished (a (stopAt sub evaluate) m)
  -- A first part that does not stop at the task ends as it would without the stop, so the second
  -- part starts from the same value and the same machine.
  · obtain ⟨course, -, hCourse⟩ := hSequential m
    have hSame : a (stopAt sub evaluate) m = a evaluate m := by
      rw [hCourse] at hFinished
      rw [hCourse, hCourse, course.run_stopAt_of_finished hFinished]
    have hFirst : ¬Reaches evaluate sub a m := not_not.2 hFinished
    simp only [hFirst, false_or]
    simp only [Reaches, Bind.bind, EStateM.bind, hSame]
    rw [hSame] at hFinished
    cases hRun : a evaluate m with
    | ok x n => simp
    | error interrupt n => simpa [hRun] using hFinished
  · constructor
    · exact fun _ => .inl hFinished
    · exact fun _ hEnd => hFinished (finished_of_bind hEnd)

/-- An element of a list with what stands before it and behind it is the first one, or one of the
others. -/
theorem exists_split_cons {ι : Type} {first : ι} {rest : List ι} {P : List ι → ι → List ι → Prop} :
    (∃ before i behind, first :: rest = before ++ i :: behind ∧ P before i behind) ↔
      P [] first rest ∨ ∃ before i behind, rest = before ++ i :: behind ∧
        P (first :: before) i behind := by
  constructor
  · intro hSplit
    obtain ⟨before, i, behind, hSame, hHolds⟩ := hSplit
    cases before with
    | nil =>
      cases hSame
      exact .inl hHolds
    | cons other before =>
      obtain ⟨rfl, rfl⟩ := List.cons.inj hSame
      exact .inr ⟨before, i, behind, rfl, hHolds⟩
  · intro hEither
    rcases hEither with hFirst | ⟨before, i, behind, rfl, hOther⟩
    · exact ⟨[], first, rest, rfl, hFirst⟩
    · exact ⟨first :: before, i, behind, rfl, hOther⟩

/-- Going on with a name asks for what there is to ask for only if there is a name. -/
theorem reaches_expectSymbol (binder : Binder) {target : Expression}
    {b : String → Evaluator → Action α} :
    Reaches evaluate sub
      (fun evaluate => expectSymbol binder target >>= fun name => b name evaluate) m ↔
      ∃ name, target = .text name ∧ literalContents? name = none ∧
        Reaches evaluate sub (b name) m := by
  cases hSymbol : target.symbol? with
  | none =>
    simp only [expectSymbol, hSymbol]
    constructor
    · intro hReaches
      exact absurd hReaches (not_reaches_const trivial)
    · rintro ⟨name, rfl, hLiteral, -⟩
      rw [Expression.symbol?_eq_some_iff.2 ⟨rfl, hLiteral⟩] at hSymbol
      cases hSymbol
  | some name =>
    obtain ⟨rfl, hLiteral⟩ := Expression.symbol?_eq_some_iff.1 hSymbol
    simp only [expectSymbol, hSymbol, pure_bind]
    simp [hLiteral]

/-- Local names are bound first, and then the body is evaluated where they are. -/
theorem reaches_bindForm {bindings body : List Expression} {first : Expression} :
    Reaches evaluate sub
      (fun evaluate => evaluateForm evaluate frame .bind (.list bindings :: first :: body)) m ↔
      Reaches evaluate sub (fun evaluate => evaluateBindings evaluate frame [] bindings) m ∨
        ∃ entries m₁, evaluateBindings evaluate frame [] bindings m = .ok entries m₁ ∧
          ∃ inner m₂, addFrame entries (some frame) m₁ = .ok inner m₂ ∧
            Reaches evaluate sub
              (fun evaluate => evaluateBody evaluate inner (first :: body)) m₂ := by
  have hBindings : Sequential (fun _ => True) fun evaluate =>
      evaluateBindings evaluate frame [] bindings :=
    .evaluateBindings (fun (_ : FormError .bind bindings _) => trivial) frame (fun _ => .of_mem) []
  have hOpens (entries : List (String × Value)) :
      Sequential (fun _ => True) fun _ => addFrame entries (some frame) := .addFrame entries _
  have hOpened (entries : List (String × Value)) (n : Machine) :
      ¬Reaches evaluate sub (fun _ => addFrame entries (some frame)) n := not_reaches_const trivial
  simp only [evaluateForm]
  simp only [reaches_bind hBindings, reaches_bind (hOpens _), hOpened, false_or]

section

variable (hEvaluate : ∀ e f n, Finished (evaluate e f n))

include hEvaluate

theorem reaches_ask (e : Expression) (f : FrameId) :
    Reaches evaluate sub (fun evaluate => evaluate e f) m ↔ sub = ⟨e, f, m⟩ := by
  unfold Reaches stopAt
  by_cases hSame : sub = ⟨e, f, m⟩
  · simp [hSame]
  · simp [hSame, hEvaluate]

/-- Going on after the evaluation of a form. -/
theorem reaches_ask_bind (e : Expression) (f : FrameId) {b : Value → Evaluator → Action α} :
    Reaches evaluate sub (fun evaluate => evaluate e f >>= fun v => b v evaluate) m ↔
      sub = ⟨e, f, m⟩ ∨ ∃ v n, evaluate e f m = .ok v n ∧ Reaches evaluate sub (b v) n := by
  rw [reaches_bind (.ask e f : Sequential (fun _ => True) _), reaches_ask hEvaluate]

/-- The arguments of an application are asked for from left to right. -/
theorem reaches_mapM (forms : List Expression) (f : FrameId) :
    Reaches evaluate sub (fun evaluate => forms.mapM (evaluate · f)) m ↔
      ∃ before e behind, forms = before ++ e :: behind ∧
        ∃ vs n, before.mapM (evaluate · f) m = .ok vs n ∧ sub = ⟨e, f, n⟩ := by
  induction forms generalizing m with
  | nil => simp [Reaches, Pure.pure, EStateM.pure]
  | cons first rest ih =>
    have hMore (v : Value) (n : Machine) :
        Reaches evaluate sub
        (fun evaluate => rest.mapM (evaluate · f) >>= fun vs => Pure.pure (v :: vs)) n ↔
          Reaches evaluate sub (fun evaluate => rest.mapM (evaluate · f)) n := by
      rw [reaches_bind (.mapM rest f : Sequential (fun _ => True) _)]
      simp [Reaches, Pure.pure, EStateM.pure]
    simp only [List.mapM_cons, reaches_ask_bind hEvaluate, hMore, ih, exists_split_cons,
      bind_eq_ok_iff]
    apply or_congr
    · simp [Pure.pure, EStateM.pure]
    · constructor
      · rintro ⟨v, n, hFirst, before, e, behind, hSplit, vs, n', hBefore, hSub⟩
        exact ⟨before, e, behind, hSplit, v :: vs, n', ⟨v, n, hFirst, vs, n', hBefore, rfl⟩, hSub⟩
      · rintro ⟨before, e, behind, hSplit, _, n', ⟨v, n, hFirst, vs, _, hBefore, hSame⟩, hSub⟩
        cases hSame
        exact ⟨v, n, hFirst, before, e, behind, hSplit, vs, n', hBefore, hSub⟩

/-- The forms of a body are asked for in turn. -/
theorem reaches_evaluateBody (forms : List Expression) (f : FrameId) :
    Reaches evaluate sub (fun evaluate => evaluateBody evaluate f forms) m ↔
      ∃ before e behind, forms = before ++ e :: behind ∧
        ∃ v n, evaluateBody evaluate f before m = .ok v n ∧ sub = ⟨e, f, n⟩ := by
  have hFold (latest : Value) :
      Reaches evaluate sub (fun evaluate => forms.foldlM (fun _ e => evaluate e f) latest) m ↔
        ∃ before e behind, forms = before ++ e :: behind ∧
          ∃ v n, before.foldlM (fun _ e => evaluate e f) latest m = .ok v n ∧ sub = ⟨e, f, n⟩ := by
    induction forms generalizing m latest with
    | nil => simp [Reaches, Pure.pure, EStateM.pure]
    | cons first rest ih =>
      simp only [List.foldlM_cons, reaches_ask_bind hEvaluate, ih, exists_split_cons,
        bind_eq_ok_iff]
      apply or_congr
      · simp [Pure.pure, EStateM.pure]
      · constructor
        · rintro ⟨v, n, hFirst, before, e, behind, hSplit, w, n', hBefore, hSub⟩
          exact ⟨before, e, behind, hSplit, w, n', ⟨v, n, hFirst, hBefore⟩, hSub⟩
        · rintro ⟨before, e, behind, hSplit, w, n', ⟨v, n, hFirst, hBefore⟩, hSub⟩
          exact ⟨v, n, hFirst, before, e, behind, hSplit, w, n', hBefore, hSub⟩
  exact hFold .nil

/-- The forms of a conjunction or a disjunction are asked for as long as none has decided. -/
theorem reaches_evaluateUntil {decisive : Bool} (forms : List Expression) (f : FrameId)
    {latest : Value} (hLatest : latest.isTrue ≠ decisive) :
    Reaches evaluate sub (fun evaluate => evaluateUntil evaluate f decisive latest forms) m ↔
      ∃ before e behind, forms = before ++ e :: behind ∧
        ∃ v n, evaluateUntil evaluate f decisive latest before m = .ok v n ∧ v.isTrue ≠ decisive ∧
          sub = ⟨e, f, n⟩ := by
  induction forms generalizing m latest with
  | nil => simp [evaluateUntil, Reaches, Pure.pure, EStateM.pure]
  | cons first rest ih =>
    have hMore (v : Value) (n : Machine) :
        Reaches evaluate sub (fun evaluate => if v.isTrue = decisive then Pure.pure v else
          evaluateUntil evaluate f decisive v rest) n ↔
          v.isTrue ≠ decisive ∧
            Reaches evaluate sub (fun evaluate => evaluateUntil evaluate f decisive v rest) n := by
      by_cases hTrue : v.isTrue = decisive
      · simp [hTrue, Reaches, Pure.pure, EStateM.pure]
      · simp [hTrue]
    simp only [evaluateUntil, reaches_ask_bind hEvaluate, hMore, exists_split_cons, bind_eq_ok_iff]
    apply or_congr
    · simp [Pure.pure, EStateM.pure, hLatest]
    · constructor
      · rintro ⟨v, n, hFirst, hOpen, hReaches⟩
        obtain ⟨before, e, behind, hSplit, w, n', hBefore, hStill, hSub⟩ := (ih hOpen).1 hReaches
        exact ⟨before, e, behind, hSplit, w, n', ⟨v, n, hFirst, by rwa [if_neg hOpen]⟩,
          hStill, hSub⟩
      · rintro ⟨before, e, behind, hSplit, w, n', ⟨v, n, hFirst, hBefore⟩, hStill, hSub⟩
        have hOpen : v.isTrue ≠ decisive := by
          intro hDecided
          rw [if_pos hDecided] at hBefore
          cases hBefore
          exact hStill hDecided
        rw [if_neg hOpen] at hBefore
        exact ⟨v, n, hFirst, hOpen,
          (ih hOpen).2 ⟨before, e, behind, hSplit, w, n', hBefore, hStill, hSub⟩⟩

/-- The initial forms of new names are asked for in turn, up to a binding with a fault. -/
theorem reaches_evaluateBindings (bindings : List Expression) (f : FrameId)
    (entries : List (String × Value)) :
    Reaches evaluate sub (fun evaluate => evaluateBindings evaluate f entries bindings) m ↔
      ∃ before binding behind, bindings = before ++ binding :: behind ∧
        ∃ entries' n, evaluateBindings evaluate f entries before m = .ok entries' n ∧
          ∃ name e, FreshBinding entries' name e binding ∧ sub = ⟨e, f, n⟩ := by
  induction bindings generalizing m entries with
  | nil => simp [evaluateBindings, Reaches, Pure.pure, EStateM.pure]
  | cons binding rest ih =>
    rw [exists_split_cons]
    -- A binding with a fault ends the form, and none behind it is looked at.
    by_cases hGood : ∃ name e, FreshBinding entries name e binding
    · obtain ⟨name, e, hBinds⟩ := hGood
      simp only [hBinds.evaluateBindings_cons, reaches_ask_bind hEvaluate, ih, bind_eq_ok_iff]
      apply or_congr
      · constructor
        · intro hSub
          exact ⟨entries, m, rfl, name, e, hBinds, hSub⟩
        · rintro ⟨entries', n, hBefore, name', e', hBinds', hSub⟩
          cases hBefore
          cases hBinds.1.symm.trans hBinds'.1
          exact hSub
      · constructor
        · rintro ⟨v, n, hFirst, before, next, behind, hSplit, entries', n', hBefore, hNext⟩
          exact ⟨before, next, behind, hSplit, entries', n', ⟨v, n, hFirst, hBefore⟩, hNext⟩
        · rintro ⟨before, next, behind, hSplit, entries', n', ⟨v, n, hFirst, hBefore⟩, hNext⟩
          exact ⟨v, n, hFirst, before, next, behind, hSplit, entries', n', hBefore, hNext⟩
    · obtain ⟨fault, hRejected⟩ :=
        exists_rejected_binding fun name e hBinds => hGood ⟨name, e, hBinds⟩
      simp only [hRejected]
      constructor
      · intro hReaches
        exact absurd hReaches (not_reaches_const trivial)
      · rintro (⟨entries', n, hBefore, name, e, hBinds, -⟩ |
          ⟨before, next, behind, -, entries', n, hBefore, -⟩)
        · cases hBefore
          exact absurd ⟨name, e, hBinds⟩ hGood
        · cases hBefore

/-- One case for each evaluation that a form may ask for. -/
theorem FormDemands.reaches {keyword : Keyword} {parts : List Expression}
    (hDemands : FormDemands evaluate frame m keyword parts sub) :
    Reaches evaluate sub (fun evaluate => evaluateForm evaluate frame keyword parts) m := by
  cases hDemands with
  | test => exact (reaches_ask_bind hEvaluate _ _).2 (.inl rfl)
  | @chosen test consequent alternative v n hTest =>
    exact (reaches_ask_bind hEvaluate _ _).2 (.inr ⟨v, n, hTest, (reaches_ask hEvaluate _ _).2 rfl⟩)
  | @definition name e hSymbol =>
    refine (reaches_expectSymbol .definition).2 ⟨name, rfl, hSymbol, ?_⟩
    exact (reaches_ask_bind hEvaluate _ _).2 (.inl rfl)
  | @assignment name e hSymbol =>
    refine (reaches_expectSymbol .assignment).2 ⟨name, rfl, hSymbol, ?_⟩
    exact (reaches_ask_bind hEvaluate _ _).2 (.inl rfl)
  | @inSequence before behind e v n hBefore =>
    exact (reaches_evaluateBody hEvaluate _ _).2 ⟨before, e, behind, rfl, v, n, hBefore, rfl⟩
  | @initial before behind body binding e first name entries n hBefore hBinds =>
    refine reaches_bindForm.2 (.inl ?_)
    exact (reaches_evaluateBindings hEvaluate _ _ _).2
      ⟨before, binding, behind, rfl, entries, n, hBefore, name, e, hBinds, rfl⟩
  | @inBody bindings before behind e entries v inner m₁ m₂ n hBindings hOpened hBefore =>
    obtain ⟨first, body, hBody⟩ : ∃ first body, before ++ e :: behind = first :: body := by
      cases before <;> exact ⟨_, _, rfl⟩
    rw [hBody]
    refine reaches_bindForm.2 (.inr ⟨entries, m₁, hBindings, inner, m₂, hOpened, ?_⟩)
    exact (reaches_evaluateBody hEvaluate _ _).2 ⟨before, e, behind, hBody.symm, v, n, hBefore, rfl⟩
  | @conjunct before behind e v n hBefore hOpen =>
    exact (reaches_evaluateUntil hEvaluate _ _ (by decide)).2
      ⟨before, e, behind, rfl, v, n, hBefore, hOpen, rfl⟩
  | @disjunct before behind e v n hBefore hOpen =>
    exact (reaches_evaluateUntil hEvaluate _ _ (by decide)).2
      ⟨before, e, behind, rfl, v, n, hBefore, hOpen, rfl⟩

/-- A definition asks for the form of its value, and that of a procedure for nothing. -/
theorem formDemands_of_reaches_definition {target e : Expression} {rest : List Expression}
    (hReaches : Reaches evaluate sub
      (fun evaluate => evaluateDefinition evaluate frame target (e :: rest)) m) :
    FormDemands evaluate frame m .define (target :: e :: rest) sub := by
  unfold evaluateDefinition at hReaches
  split at hReaches
  case h_1 => exact absurd hReaches (not_reaches_const trivial)
  -- The definition of a procedure only makes a closure.
  case h_2 target parameters =>
    obtain ⟨name, -, -, hMakes⟩ := (reaches_expectSymbol .definition).1 hReaches
    refine absurd hMakes
      (not_reaches_const (finished_bind (finished_makeClosure _ _ _) (fun v n => ?_) m))
    trivial
  case h_3 _ hBody =>
    obtain ⟨rfl, rfl⟩ := List.cons.inj hBody
    obtain ⟨name, rfl, hSymbol, hValue⟩ := (reaches_expectSymbol .definition).1 hReaches
    rcases (reaches_ask_bind hEvaluate _ _).1 hValue with rfl | ⟨v, n, -, hBinds⟩
    · exact .definition hSymbol
    · exact absurd hBinds (not_reaches_const trivial)
  case h_4 => exact absurd hReaches (not_reaches_const trivial)

/-- One case for each special form. -/
theorem formDemands_of_reaches {keyword : Keyword} {parts : List Expression}
    (hReaches : Reaches evaluate sub
      (fun evaluate => evaluateForm evaluate frame keyword parts) m) :
    FormDemands evaluate frame m keyword parts sub := by
  unfold evaluateForm at hReaches
  split at hReaches
  case h_1 => exact absurd hReaches (not_reaches_const trivial)
  case h_2 test consequent alternative =>
    rcases (reaches_ask_bind hEvaluate _ _).1 hReaches with rfl | ⟨v, n, hTest, hChosen⟩
    · exact .test
    · cases (reaches_ask hEvaluate _ _).1 hChosen
      exact .chosen hTest
  case h_3 => exact formDemands_of_reaches_definition hEvaluate hReaches
  case h_4 target e =>
    obtain ⟨name, rfl, hSymbol, hValue⟩ := (reaches_expectSymbol .assignment).1 hReaches
    rcases (reaches_ask_bind hEvaluate _ _).1 hValue with rfl | ⟨v, n, -, hAssigns⟩
    · exact .assignment hSymbol
    · refine absurd hAssigns
        (not_reaches_const (finished_bind (finished_assign frame name v) (fun _ _ => ?_) n))
      trivial
  case h_5 parameters e rest =>
    exact absurd hReaches (not_reaches_const (finished_makeClosure _ _ _ _))
  case h_6 => exact absurd hReaches (not_reaches_const trivial)
  case h_7 =>
    obtain ⟨before, e, behind, rfl, v, n, hBefore, rfl⟩ :=
      (reaches_evaluateBody hEvaluate _ _).1 hReaches
    exact .inSequence hBefore
  case h_8 bindings first body =>
    rcases reaches_bindForm.1 hReaches with
      hInitial | ⟨entries, m₁, hBindings, inner, m₂, hOpened, hBody⟩
    · obtain ⟨before, binding, behind, rfl, entries, n, hBefore, name, e, hBinds, rfl⟩ :=
        (reaches_evaluateBindings hEvaluate _ _ _).1 hInitial
      exact .initial hBefore hBinds
    · obtain ⟨before, e, behind, hSplit, v, n, hBefore, rfl⟩ :=
        (reaches_evaluateBody hEvaluate _ _).1 hBody
      rw [hSplit]
      exact .inBody hBindings hOpened hBefore
  case h_9 => exact absurd hReaches (not_reaches_const trivial)
  case h_10 =>
    obtain ⟨before, e, behind, rfl, v, n, hBefore, hOpen, rfl⟩ :=
      (reaches_evaluateUntil hEvaluate _ _ (by decide)).1 hReaches
    exact .conjunct hBefore hOpen
  case h_11 =>
    obtain ⟨before, e, behind, rfl, v, n, hBefore, hOpen, rfl⟩ :=
      (reaches_evaluateUntil hEvaluate _ _ (by decide)).1 hReaches
    exact .disjunct hBefore hOpen
  case h_12 => exact absurd hReaches (not_reaches_const trivial)

/-- An application asks for the body of a closure, and for nothing else. -/
theorem reaches_applyWith {caller : Caller}
    (hCalls : ∀ native vs f n, Finished (caller native vs f n)) {v : Value} {vs : List Value} :
    Reaches evaluate sub (fun evaluate => applyWith caller evaluate v vs frame) m ↔
      ∃ k, v = .procedure (.closure k) ∧ k.parameters.length = vs.length ∧
        ∃ inner n, (do
          record (.applying k.parameters vs.length)
          addFrame (k.parameters.zip vs) (some k.frame)) m = .ok inner n ∧
            sub = ⟨k.body, inner, n⟩ := by
  match v with
  | .procedure (.closure k) =>
    by_cases hCount : k.parameters.length = vs.length
    · let opens : Action FrameId := do
        record (.applying k.parameters vs.length)
        addFrame (k.parameters.zip vs) (some k.frame)
      have hOpens : Sequential (fun _ => True) fun _ => opens := .const fun _ => trivial
      have hOpened : ¬Reaches evaluate sub (fun _ => opens) m := not_reaches_const trivial
      have hCall : (fun evaluate => applyWith caller evaluate (.procedure (.closure k)) vs frame) =
          fun evaluate => opens >>= fun inner => evaluate k.body inner := by
        funext evaluate
        simp only [applyWith, callClosure, hCount, if_true, opens, bind_assoc]
      simp only [hCall, reaches_bind hOpens, hOpened, false_or, reaches_ask hEvaluate]
      constructor
      · rintro ⟨inner, n, hRun, hSub⟩
        exact ⟨k, rfl, hCount, inner, n, hRun, hSub⟩
      · rintro ⟨k', hSame, -, inner, n, hRun, hSub⟩
        cases hSame
        exact ⟨inner, n, hRun, hSub⟩
    · simp only [applyWith, callClosure, hCount, if_false]
      constructor
      · intro hReaches
        exact absurd hReaches (not_reaches_const trivial)
      · rintro ⟨k', hSame, hCount', -⟩
        cases hSame
        exact absurd hCount' hCount
  | .procedure (.native native) =>
    constructor
    · intro hReaches
      exact absurd hReaches (not_reaches_const (hCalls native vs frame m))
    · rintro ⟨k, hSame, -⟩
      cases hSame
  | .integer _ | .float _ | .text _ | .boolean _ | .list _ =>
    simp only [applyWith]
    constructor
    · intro hReaches
      refine absurd hReaches (not_reaches_const ?_)
      split <;> trivial
    · rintro ⟨k, hSame, -⟩
      cases hSame

/-- The evaluations that a list that is not empty asks for, in the form of a keyword or in an
application. -/
theorem reaches_evaluateList {caller : Caller}
    (hCalls : ∀ native vs f n, Finished (caller native vs f n)) {head : Expression}
    {rest : List Expression} :
    Reaches evaluate sub (fun evaluate => evaluateList caller evaluate head rest frame) m ↔
      Demands evaluate ⟨.list (head :: rest), frame, m⟩ sub := by
  cases hKeyword : head.symbol?.bind Keyword.ofName? with
  | some keyword =>
    simp only [evaluateList, hKeyword]
    constructor
    · intro hReaches
      cases symbol?_bind_ofName?.1 hKeyword
      exact .form (formDemands_of_reaches hEvaluate hReaches)
    · intro hDemands
      cases hDemands with
      | @form keyword' _ _ _ _ hForm =>
        cases hKeyword.symm.trans (symbol?_bind_ofName?.2 rfl)
        exact hForm.reaches hEvaluate
      | head hNone | argument hNone | body hNone =>
        rw [hNone] at hKeyword
        cases hKeyword
  | none =>
    have hArguments : Sequential (fun _ => True) fun evaluate => rest.mapM (evaluate · frame) :=
      .mapM rest frame
    simp only [evaluateList, hKeyword, reaches_ask_bind hEvaluate, reaches_bind hArguments,
      reaches_mapM hEvaluate, reaches_applyWith hEvaluate hCalls]
    constructor
    · rintro (rfl | ⟨v, m₁, hHead, ⟨before, e, behind, rfl, vs, n, hBefore, rfl⟩ |
        ⟨vs, m₂, hRest, k, rfl, hCount, inner, n, hOpened, rfl⟩⟩)
      · exact .head hKeyword
      · exact .argument hKeyword hHead hBefore
      · exact .body hKeyword hHead hRest hCount hOpened
    · intro hDemands
      cases hDemands with
      | form =>
        rw [symbol?_bind_ofName?.2 rfl] at hKeyword
        cases hKeyword
      | head => exact .inl rfl
      | @argument _ e before behind v vs _ _ m₁ n _ hHead hBefore =>
        exact .inr ⟨v, m₁, hHead, .inl ⟨before, e, behind, rfl, vs, n, hBefore, rfl⟩⟩
      | @body _ _ k vs _ inner _ m₁ m₂ n _ hHead hRest hCount hOpened =>
        exact .inr ⟨_, m₁, hHead, .inr ⟨vs, m₂, hRest, k, rfl, hCount, inner, n, hOpened, rfl⟩⟩

end

variable {host : Host} {limit depth : Nat} {task : Task}

/-- What is not a list of something comes to an end by itself. -/
theorem finished_step_atom {e : Expression} (hAtom : ¬∃ head rest, e = .list (head :: rest)) :
    Finished (step host evaluate e frame m) := by
  match e with
  | .list (head :: rest) => exact absurd ⟨head, rest, rfl⟩ hAtom
  | .text token =>
    simp only [step]
    cases literalContents? token with
    | some contents => trivial
    | none => exact finished_lookup frame token m
  | .integer _ | .float _ | .boolean _ | .list [] => trivial

/-- Only lists that are not empty demand anything. -/
theorem Demands.exists_list (hDemands : Demands evaluate task sub) :
    ∃ head rest, task.form = .list (head :: rest) := by
  cases hDemands <;> exact ⟨_, _, rfl⟩

/-- Within the limit a form asks for what it demands, with answers from the next depth. Beyond the
limit it asks for nothing. -/
theorem asks_iff : Asks host limit depth task sub ↔
    depth ≤ limit ∧ Demands (evalAt host (some limit) (limit + 2) (depth + 1)) task sub := by
  by_cases hWithin : depth ≤ limit
  · obtain ⟨form, frame, m⟩ := task
    have hEvaluate : ∀ e f n, Finished (evalAt host (some limit) (limit + 2) (depth + 1) e f n) :=
      finished_evalAt (by omega)
    simp only [Asks, stepAt_within host hWithin, hWithin, true_and]
    by_cases hList : ∃ head rest, form = .list (head :: rest)
    · obtain ⟨head, rest, rfl⟩ := hList
      simp only [step, finished_mapError]
      exact reaches_evaluateList hEvaluate (finished_callNative host)
    · have hFinished : Finished (step host
          (stopAt sub (evalAt host (some limit) (limit + 2) (depth + 1))) form frame m) :=
        finished_step_atom hList
      exact ⟨fun hAsks => absurd hFinished hAsks, fun hDemands => absurd hDemands.exists_list hList⟩
  · constructor
    · exact fun hAsks => absurd hAsks.depth_le hWithin
    · exact fun hBoth => absurd hBoth.1 hWithin

/-- Within a limit every evaluation comes to an end, with a value or with an error, from every
machine and whatever the closures in it do. Each form asks for its own evaluations, all of them at
the next depth, and only as long as it is itself within the limit. So what is evaluated on the way
is at a depth of at most one beyond the limit, and each time the distance from there gets smaller.
The native procedures come to an end too: where one of them goes through a loop, the number of
rounds is bounded. -/
theorem limited_evaluation_ends (host : Host) (limit : Nat) :
    (∀ e frame m, ∃ after, (∃ v, evalWithin host limit e frame m = .ok v after) ∨
      ∃ error, evalWithin host limit e frame m = .error (.error error) after) ∧
    evalAt host (some limit) (limit + 2) 0 = evalWithin host limit ∧
    (∀ nested depth, limit + 1 - depth < nested → ∀ e frame m,
      Finished (evalAt host (some limit) nested depth e frame m)) ∧
    (∀ depth task sub, Asks host limit depth task sub ↔
      depth ≤ limit ∧ Demands (evalAt host (some limit) (limit + 2) (depth + 1)) task sub) ∧
    (∀ task depth sub, Arises host limit task depth sub → depth ≤ limit + 1) ∧
    (∀ depth task sub, Asks host limit depth task sub →
      limit + 1 - (depth + 1) < limit + 1 - depth) ∧
    (∀ native arguments frame m, Finished (callNative host native arguments frame m)) ∧
    (∀ n, Loop.run (Fixnum.factorialRound n) 20 (2, 1) = some (Fixnum.factorial? n)) ∧
    (∀ x exponent, Loop.run Binary64.scaleRound 4 (x, exponent) = some (x.scale exponent)) ∧
    ∀ vs, Loop.run Arithmetic.sumRound (vs.length + 1) (none, vs) = some (Arithmetic.sum vs) := by
  refine ⟨fun e frame m => ?_, evalAt_eq_evalWithin, fun _ _ hNested => finished_evalAt hNested,
    fun _ _ _ => asks_iff, fun _ _ _ hArises => hArises.depth_le, fun depth _ _ hAsks =>
    ?_, finished_callNative host,
    Fixnum.factorial?_rounds, Binary64.scale_rounds, Arithmetic.sum_rounds⟩
  · have hFinished : Finished (evalWithin host limit e frame m) := by
      rw [← evalAt_eq_evalWithin]
      exact finished_evalAt (Nat.lt_succ_self _) e frame m
    match hOutcome : evalWithin host limit e frame m with
    | .ok v after => exact ⟨after, .inl ⟨v, rfl⟩⟩
    | .error (.error error) after => exact ⟨after, .inr ⟨error, rfl⟩⟩
    | .error .outOfLevels after =>
      rw [hOutcome] at hFinished
      exact hFinished.elim
  · have hDepth := hAsks.depth_le
    omega

end Evaluation

end EmbeddedLisp
