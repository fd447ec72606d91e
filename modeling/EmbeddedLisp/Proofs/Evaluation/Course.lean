import EmbeddedLisp.Proofs.Evaluation.Depth
import EmbeddedLisp.Proofs.Evaluation.Discipline
import EmbeddedLisp.Proofs.Expression.Parts

/-! The course of a step. What a step does with the evaluator for the level below is to ask it for
one evaluation after another. It goes on with the value of each, and what has no value ends it. So a
step that fails does so either of its own or in the first evaluation without a value, and what it
does depends on finitely many answers. -/
namespace EmbeddedLisp

open EmbeddedLisp.Action Form
open Expression (PartOf Inside)

namespace Evaluation

variable {α β : Type}

/-- What an evaluator answers to a task. -/
def Task.answer (task : Task) (evaluate : Evaluator) : Outcome Value :=
  evaluate task.form task.frame task.machine

/-- What is asked of an evaluator, where each task may depend on the values of the earlier ones. -/
inductive Course (α : Type) where
  | ended (outcome : Outcome α)
  | asks (task : Task) (next : Value → Machine → Course α)

namespace Course

/-- The end that is come to with the answers of an evaluator. -/
def run (evaluate : Evaluator) : Course α → Outcome α
  | .ended outcome => outcome
  | .asks task next =>
    match task.answer evaluate with
    | .ok v m => (next v m).run evaluate
    | .error interrupt m => .error interrupt m

/-- A course, and then another one from where it ends. -/
def bind : Course α → (α → Machine → Course β) → Course β
  | .ended (.ok x m), next => next x m
  | .ended (.error interrupt m), _ => .ended (.error interrupt m)
  | .asks task more, next => .asks task fun v m => (more v m).bind next

/-- Whether the course is interrupted only by what may interrupt it, apart from the answers. -/
def Owns (Own : Interrupt → Prop) : Course α → Prop
  | .ended outcome => ∀ interrupt m, outcome = .error interrupt m → Own interrupt
  | .asks _ next => ∀ v m, (next v m).Owns Own

/-- Courses in sequence run like actions in sequence. -/
theorem run_bind (evaluate : Evaluator) (course : Course α) (next : α → Machine → Course β) :
    (course.bind next).run evaluate =
      match course.run evaluate with
      | .ok x m => (next x m).run evaluate
      | .error interrupt m => .error interrupt m := by
  induction course with
  | ended outcome => cases outcome <;> rfl
  | asks task more ih =>
    simp only [bind, run]
    cases task.answer evaluate with
    | ok v m => exact ih v m
    | error interrupt m => rfl

/-- What interrupts a sequence interrupts one of its parts. -/
theorem Owns.bind {Own : Interrupt → Prop} {course : Course α} {next : α → Machine → Course β}
    (hFirst : course.Owns Own) (hSecond : ∀ x m, (next x m).Owns Own) :
    (course.bind next).Owns Own := by
  induction course with
  | ended outcome =>
    cases outcome with
    | ok x m => exact hSecond x m
    | error interrupt m =>
      intro i n hSame
      cases hSame
      exact hFirst interrupt m rfl
  | asks task more ih => exact fun v m => ih v m (hFirst v m)

/-- Evaluators of which the second one comes to all the values that the first one comes to. -/
def KeepsValues (evaluate evaluate' : Evaluator) : Prop :=
  ∀ task : Task, ∀ v m, task.answer evaluate = .ok v m → task.answer evaluate' = .ok v m

/-- Either all answers on the way are values, or there is a first one that is none, and the course
ends with this answer, whatever it is. -/
theorem run_cases (course : Course α) (evaluate : Evaluator) :
    (∀ evaluate', KeepsValues evaluate evaluate' → course.run evaluate' = course.run evaluate) ∨
      ∃ (task : Task) (interrupt : Interrupt) (m : Machine),
        task.answer evaluate = .error interrupt m ∧
        ∀ evaluate', KeepsValues evaluate evaluate' → ∀ j n, task.answer evaluate' = .error j n →
          course.run evaluate' = .error j n := by
  induction course with
  | ended outcome => exact .inl fun _ _ => rfl
  | asks task next ih =>
    cases hAnswer : task.answer evaluate with
    | ok v m =>
      have hRun {evaluate' : Evaluator} (hKeeps : KeepsValues evaluate evaluate') :
          (Course.asks task next).run evaluate' = (next v m).run evaluate' := by
        simp only [run, hKeeps task v m hAnswer]
      have hHere : KeepsValues evaluate evaluate := fun _ _ _ => id
      rcases ih v m with hOwn | ⟨later, interrupt, n, hFails, hEnds⟩
      · refine .inl fun evaluate' hKeeps => ?_
        rw [hRun hKeeps, hRun hHere, hOwn evaluate' hKeeps]
      · refine .inr ⟨later, interrupt, n, hFails, fun evaluate' hKeeps j n' hAnswer' => ?_⟩
        rw [hRun hKeeps, hEnds evaluate' hKeeps j n' hAnswer']
    | error interrupt m =>
      refine .inr ⟨task, interrupt, m, hAnswer, fun evaluate' _ j n hAnswer' => ?_⟩
      simp only [run, hAnswer']

/-- What interrupts a course is its own, or an answer. -/
theorem own_or_answer {Own : Interrupt → Prop} {course : Course α} (hOwns : course.Owns Own)
    {evaluate : Evaluator} {interrupt : Interrupt} {m : Machine}
    (hRun : course.run evaluate = .error interrupt m) :
    Own interrupt ∨ ∃ task : Task, task.answer evaluate = .error interrupt m := by
  induction course with
  | ended outcome => exact .inl (hOwns interrupt m hRun)
  | asks task next ih =>
    simp only [run] at hRun
    cases hAnswer : task.answer evaluate with
    | ok v n =>
      rw [hAnswer] at hRun
      exact ih v n (hOwns v n) hRun
    | error j n =>
      rw [hAnswer] at hRun
      cases hRun
      exact .inr ⟨task, hAnswer⟩

end Course

/-- An action over an evaluator that only asks it for one evaluation after another. -/
def Sequential (Own : Interrupt → Prop) (action : Evaluator → Action α) : Prop :=
  ∀ m, ∃ course : Course α, course.Owns Own ∧ ∀ evaluate, action evaluate m = course.run evaluate

namespace Sequential

variable {Own : Interrupt → Prop}

/-- An action that asks for nothing is interrupted by what it fails with itself. -/
theorem const {a : Action α} (hOwn : ∀ {m i n}, a m = .error i n → Own i) :
    Sequential Own fun _ => a :=
  fun m => ⟨.ended (a m), fun _ _ => hOwn, fun _ => rfl⟩

theorem pure (x : α) : Sequential Own fun _ => Pure.pure x := const nofun

theorem reject {fault : Fault} (hOwn : Own (.error (.rejected fault none))) :
    Sequential Own fun _ => (Action.reject fault : Action α) := by
  apply const
  intro m i n hFails
  cases hFails
  exact hOwn

theorem addFrame (entries : List (String × Value)) (parent : Option FrameId) :
    Sequential Own fun _ => Action.addFrame entries parent := const nofun

/-- To ask for one evaluation is the shortest course that is not over at once. -/
theorem ask (e : Expression) (frame : FrameId) :
    Sequential Own fun evaluate => evaluate e frame := by
  intro m
  refine ⟨.asks ⟨e, frame, m⟩ fun v n => .ended (.ok v n), ?_, fun evaluate => ?_⟩
  · intro v n interrupt n' hNone
    cases hNone
  · simp only [Course.run, Task.answer]
    cases evaluate e frame m <;> rfl

theorem bind {a : Evaluator → Action α} {b : α → Evaluator → Action β} (hFirst : Sequential Own a)
    (hSecond : ∀ x, Sequential Own (b x)) :
    Sequential Own fun evaluate => a evaluate >>= fun x => b x evaluate := by
  intro m
  obtain ⟨course, hOwns, hCourse⟩ := hFirst m
  choose next hNextOwns hNext using hSecond
  refine ⟨course.bind next, hOwns.bind hNextOwns, fun evaluate => ?_⟩
  rw [Course.run_bind, ← hCourse]
  simp only [Bind.bind, EStateM.bind]
  cases a evaluate m with
  | ok x n => exact hNext x n evaluate
  | error interrupt n => rfl

/-- Forms in turn, by induction on them. -/
theorem mapM (forms : List Expression) (frame : FrameId) :
    Sequential Own fun evaluate => forms.mapM (evaluate · frame) := by
  induction forms with
  | nil => exact pure []
  | cons e rest ih =>
    simp only [List.mapM_cons]
    exact (ask e frame).bind fun v => ih.bind fun vs => pure (v :: vs)

theorem evaluateBody (forms : List Expression) (frame : FrameId) :
    Sequential Own fun evaluate => Form.evaluateBody evaluate frame forms := by
  have hFold (v : Value) : Sequential Own fun evaluate =>
      forms.foldlM (fun _ e => evaluate e frame) v := by
    induction forms generalizing v with
    | nil => exact pure v
    | cons e rest ih =>
      simp only [List.foldlM_cons]
      exact (ask e frame).bind ih
  exact hFold .nil

theorem evaluateUntil (decisive : Bool) (forms : List Expression) (frame : FrameId) (v : Value) :
    Sequential Own fun evaluate => Form.evaluateUntil evaluate frame decisive v forms := by
  induction forms generalizing v with
  | nil => exact pure v
  | cons e rest ih =>
    simp only [Form.evaluateUntil]
    refine (ask e frame).bind fun v => ?_
    by_cases hTrue : v.isTrue = decisive
    · simp only [hTrue, if_true]
      exact pure v
    · simp only [hTrue, if_false]
      exact ih v

end Sequential

/-- What the form of a keyword fails with of its own: a fault in its parts, which may be shown, or
the name in it that is to be assigned and is bound nowhere. -/
inductive FormError (keyword : Keyword) (parts : List Expression) : Error → Prop where
  | wrongCount (expected : Arity) (given : Nat) :
      FormError keyword parts (.rejected (.wrongCount expected given) none)
  | notSymbol (binder : Binder) {e : Expression} (hInside : Inside parts e) :
      FormError keyword parts (.rejected (.notSymbol binder e) none)
  | duplicateParameter {name : String} (hInside : Inside parts (.text name)) :
      FormError keyword parts (.rejected (.duplicateParameter name) none)
  | duplicateBinding {name : String} (hInside : Inside parts (.text name)) :
      FormError keyword parts (.rejected (.duplicateBinding name) none)
  | namelessDefinition : FormError keyword parts (.rejected .namelessDefinition none)
  | malformedDefinition : FormError keyword parts (.rejected .malformedDefinition none)
  | parametersNotList : FormError keyword parts (.rejected .parametersNotList none)
  | bindingsNotList : FormError keyword parts (.rejected .bindingsNotList none)
  | malformedBinding {e : Expression} (hInside : Inside parts e) :
      FormError keyword parts (.rejected (.malformedBinding e) none)
  | unbound {name : String} {e : Expression} (hKeyword : keyword = .assign)
      (hParts : parts = [.text name, e])
      (hSymbol : literalContents? name = none) : FormError keyword parts (.unbound name)

namespace Sequential

variable {Own : Interrupt → Prop} {keyword : Keyword} {parts : List Expression}
  (hOwn : ∀ {error}, FormError keyword parts error → Own (.error error)) (frame : FrameId)

include hOwn

/-- Going on with the name that a form in a place for a symbol gives. -/
theorem expectSymbol {α : Type} (binder : Binder) {e : Expression} (hInside : Inside parts e)
    {next : String → Evaluator → Action α}
    (hNext : ∀ name, e = .text name → literalContents? name = none → Sequential Own (next name)) :
    Sequential Own fun evaluate => Form.expectSymbol binder e >>= fun name =>
      next name evaluate := by
  cases hSymbol : e.symbol? with
  | none =>
    simp only [Form.expectSymbol, hSymbol]
    exact (reject (hOwn (.notSymbol binder hInside)) : Sequential Own fun _ =>
      (Action.reject _ : Action α))
  | some name =>
    simp only [Form.expectSymbol, hSymbol, pure_bind]
    obtain ⟨hText, hContents⟩ := Expression.symbol?_eq_some_iff.1 hSymbol
    exact hNext name hText hContents

theorem parameterNames {parameters : List Expression} (hInside : ∀ e ∈ parameters, Inside parts e)
    (names : List String) : Sequential Own fun _ => Form.parameterNames names parameters := by
  induction parameters generalizing names with
  | nil => exact pure names
  | cons e rest ih =>
    obtain ⟨hFirst, hRest⟩ := List.forall_mem_cons.1 hInside
    simp only [Form.parameterNames]
    refine expectSymbol hOwn .parameter hFirst fun name hText _ => ?_
    by_cases hContains : names.contains name
    · simp only [hContains, if_true]
      exact reject (hOwn (.duplicateParameter (hText ▸ hFirst)))
    · simp only [hContains]
      exact ih hRest (names ++ [name])

/-- To make a closure takes the names of the parameters, and asks for no evaluation. -/
theorem makeClosure {parameters : List Expression} (hInside : ∀ e ∈ parameters, Inside parts e)
    (body : List Expression) : Sequential Own fun _ => Form.makeClosure parameters body frame := by
  simp only [Form.makeClosure]
  exact (parameterNames hOwn hInside []).bind fun names => const nofun

/-- The bindings of a `let` ask for their initial forms, up to the first one that is at fault. -/
theorem evaluateBindings {bindings : List Expression} (hInside : ∀ e ∈ bindings, Inside parts e)
    (entries : List (String × Value)) :
    Sequential Own fun evaluate => Form.evaluateBindings evaluate frame entries bindings := by
  induction bindings generalizing entries with
  | nil => exact pure entries
  | cons binding rest ih =>
    obtain ⟨hFirst, hRest⟩ := List.forall_mem_cons.1 hInside
    have hMalformed : Sequential Own fun _ : Evaluator =>
        (Action.reject (.malformedBinding binding) : Action (List (String × Value))) :=
      reject (hOwn (.malformedBinding hFirst))
    match binding with
    | .list [target, e] =>
      simp only [Form.evaluateBindings]
      have hTarget : Inside parts target := hFirst.element List.mem_cons_self
      refine expectSymbol hOwn .binding hTarget fun name hText _ => ?_
      by_cases hAny : entries.any (·.1 = name)
      · simp only [hAny, if_true]
        exact reject (hOwn (.duplicateBinding (hText ▸ hTarget)))
      · simp only [hAny]
        exact (ask e frame).bind fun v => ih hRest (entries ++ [(name, v)])
    | .integer _ | .float _ | .text _ | .boolean _
    | .list [] | .list [_] | .list (_ :: _ :: _ :: _) =>
      exact hMalformed

theorem evaluateDefinition {target e : Expression} {rest : List Expression}
    (hTarget : Inside parts target) :
    Sequential Own fun evaluate => Form.evaluateDefinition evaluate frame target (e :: rest) := by
  have hBind (name : String) (v : Value) :
      Sequential Own fun _ => Form.bindDefinition frame name v := const nofun
  have hValue (target : Expression) (hTarget : Inside parts target) :
      Sequential Own fun evaluate => Form.expectSymbol .definition target >>= fun name =>
        evaluate e frame >>= Form.bindDefinition frame name :=
    expectSymbol hOwn .definition hTarget fun name _ _ => (ask e frame).bind (hBind name)
  have hMalformed : Sequential Own fun _ : Evaluator =>
      (Action.reject .malformedDefinition : Action Value) :=
    reject (hOwn .malformedDefinition)
  match target, rest with
  | .list [], _ => exact reject (hOwn .namelessDefinition)
  | .list (name :: parameters), rest =>
    simp only [Form.evaluateDefinition]
    refine expectSymbol hOwn .definition (hTarget.element List.mem_cons_self) fun name _ _ => ?_
    have hParameters (e : Expression) (hMem : e ∈ parameters) : Inside parts e :=
      hTarget.element (List.mem_cons_of_mem _ hMem)
    exact (makeClosure hOwn frame hParameters _).bind (hBind name)
  | .integer _, [] | .float _, [] | .text _, [] | .boolean _, [] => exact hValue _ hTarget
  | .integer _, _ :: _ | .float _, _ :: _ | .text _, _ :: _ | .boolean _, _ :: _ => exact hMalformed

/-- One case for each special form. -/
theorem evaluateForm :
    Sequential Own fun evaluate => Form.evaluateForm evaluate frame keyword parts := by
  have hCount : Sequential Own fun _ : Evaluator =>
      (Action.reject (.wrongCount keyword.arity parts.length) : Action Value) :=
        reject (hOwn (.wrongCount _ _))
  match keyword, parts with
  | .quote, [e] => exact pure (Value.ofExpression e)
  | .branch, [test, consequent, alternative] =>
    exact (ask test frame).bind fun v => ask (if v.isTrue then consequent else alternative) frame
  | .define, target :: e :: rest => exact evaluateDefinition hOwn frame (.of_mem List.mem_cons_self)
  | .assign, [target, e] =>
    refine expectSymbol hOwn .assignment (.of_mem List.mem_cons_self) fun name hText hSymbol => ?_
    refine (ask e frame).bind fun v => ?_
    apply const
    intro m i n hFails
    simp only [Bind.bind, EStateM.bind, assign_apply] at hFails
    cases hOwner : m.store.owner? frame name with
    | none =>
      rw [hOwner] at hFails
      cases hFails
      exact hOwn (.unbound rfl (by rw [hText]) hSymbol)
    | some owner =>
      rw [hOwner] at hFails
      cases hFails
  | .lambda, .list parameters :: e :: rest =>
    exact makeClosure hOwn frame (fun e hMem => (Inside.of_mem List.mem_cons_self).element hMem)
      (e :: rest)
  | .lambda, .integer _ :: _ :: _ | .lambda, .float _ :: _ :: _ | .lambda, .text _ :: _ :: _
  | .lambda, .boolean _ :: _ :: _ => exact reject (hOwn .parametersNotList)
  | .sequence, forms => exact evaluateBody forms frame
  | .bind, .list bindings :: e :: rest =>
    refine (evaluateBindings hOwn frame
      (fun e hMem => (Inside.of_mem List.mem_cons_self).element hMem) []).bind
      fun entries => ?_
    exact (addFrame entries (some frame)).bind fun inner => evaluateBody (e :: rest) inner
  | .bind, .integer _ :: _ :: _ | .bind, .float _ :: _ :: _ | .bind, .text _ :: _ :: _
  | .bind, .boolean _ :: _ :: _ => exact reject (hOwn .bindingsNotList)
  | .conjunction, forms => exact evaluateUntil false forms frame (.boolean true)
  | .disjunction, forms => exact evaluateUntil true forms frame (.boolean false)
  | .quote, [] | .quote, _ :: _ :: _ | .branch, [] | .branch, [_] | .branch, [_, _]
  | .branch, _ :: _ :: _ :: _ :: _ | .define, [] | .define, [_] | .assign, [] | .assign, [_]
  | .assign, _ :: _ :: _ :: _ | .lambda, [] | .bind, [] => exact hCount
  | .lambda, [e] | .bind, [e] => cases e <;> exact hCount

end Sequential

/-- Only the name of a keyword makes a head one. -/
theorem symbol?_bind_ofName? {head : Expression} {keyword : Keyword} :
    head.symbol?.bind Keyword.ofName? = some keyword ↔ head = .text keyword.name := by
  constructor
  · intro hKeyword
    obtain ⟨name, hSymbol, hName⟩ := Option.bind_eq_some_iff.1 hKeyword
    rw [Keyword.ofName?_eq_some_iff.1 hName]
    exact (Expression.symbol?_eq_some_iff.1 hSymbol).1
  · rintro rfl
    cases keyword <;> rfl

/-- What forms and procedures are interrupted by of their own. It does not name the list that was
evaluated. -/
inductive Unplaced : Interrupt → Prop where
  | unbound (name : String) : Unplaced (.error (.unbound name))
  | rejected (fault : Fault) : Unplaced (.error (.rejected fault none))

theorem FormError.unplaced {keyword : Keyword} {parts : List Expression} {error : Error}
    (hError : FormError keyword parts error) : Unplaced (.error error) := by
  cases hError with
  | unbound => exact .unbound _
  | _ => exact .rejected _

variable {Own : Interrupt → Prop} (hRejected : ∀ fault, Own (.error (.rejected fault none)))

include hRejected

/-- A native procedure fails by a fault in its arguments, or because there is no procedure of the
name. -/
theorem own_callNative {host : Host} {native : Native} {arguments : List Value} {frame : FrameId}
    (hHost : ∀ name, native = .host name → Own (.error (.unbound name))) {m n : Machine}
    {interrupt : Interrupt}
    (hFails : callNative host native arguments frame m = .error interrupt n) : Own interrupt := by
  cases native with
  | builtin procedure =>
    simp only [callNative] at hFails
    cases hCall : procedure.operation.call arguments with
    | ok v =>
      rw [hCall] at hFails
      cases hFails
    | error fault =>
      rw [hCall] at hFails
      cases hFails
      exact hRejected fault
  | host name =>
    simp only [callNative] at hFails
    cases hFind : host.procedure? name with
    | none =>
      rw [hFind] at hFails
      cases hFails
      exact hHost name rfl
    | some procedure =>
      simp only [hFind, get_bind] at hFails
      simp only [Bind.bind, EStateM.bind] at hFails
      cases hAnswer : procedure.run arguments (m.store.bindings frame).binds with
      | error fault =>
        rw [hAnswer] at hFails
        cases hFails
        exact hRejected fault
      | ok answer =>
        simp only [hAnswer, Action.ofExcept, Pure.pure, EStateM.pure, forM_define_apply] at hFails
        cases hFails

omit hRejected in
theorem Sequential.callClosure (k : Closure) (arguments : List Value)
    (hCount : ∀ expected given, Own (.error (.rejected (.wrongCount expected given) none))) :
    Sequential Own fun evaluate => Evaluation.callClosure evaluate k arguments := by
  simp only [Evaluation.callClosure]
  by_cases hSame : k.parameters.length = arguments.length
  · simp only [hSame, if_true]
    refine Sequential.bind (.const nofun) fun _ => ?_
    exact Sequential.bind (.addFrame _ _) fun inner => .ask k.body inner
  · simp only [hSame, if_false]
    exact .reject (hCount _ _)

/-- What is applied rejects its arguments, or is a procedure that the host does not have. -/
theorem Sequential.applyWith (host : Host) {v : Value} (arguments : List Value) (frame : FrameId)
    (hHost : ∀ name, v = .procedure (.native (.host name)) → Own (.error (.unbound name))) :
    Sequential Own fun evaluate => Evaluation.applyWith host evaluate v arguments frame := by
  match v with
  | .procedure (.native native) =>
    exact .const (own_callNative hRejected fun name hSame => hHost name (hSame ▸ rfl))
  | .procedure (.closure k) => exact .callClosure k arguments fun _ _ => hRejected _
  | .integer _ | .float _ | .text _ | .boolean _ | .list _ =>
    simp only [Evaluation.applyWith]
    split
    · exact .pure _
    · exact .reject (hRejected _)

omit hRejected

/-- Whatever a list is, it asks for one evaluation after another, and what it fails with itself has
no place in a form yet. -/
theorem sequential_evaluateList (host : Host) (head : Expression) (rest : List Expression)
    (frame : FrameId) :
    Sequential Unplaced fun evaluate => evaluateList host evaluate head rest frame := by
  simp only [evaluateList]
  cases head.symbol?.bind Keyword.ofName? with
  | some keyword => exact .evaluateForm FormError.unplaced frame
  | none =>
    refine Sequential.bind (.ask head frame) fun v => ?_
    refine Sequential.bind (.mapM rest frame) fun arguments => ?_
    exact .applyWith .rejected host arguments frame fun name _ => .unbound name

end Evaluation

end EmbeddedLisp
