import EmbeddedLisp.Proofs.Evaluation.Settled

/-! Forms that can do without their keywords. A `let` is the application of a procedure that is made
for it, the definition of a procedure is the definition of what `lambda` makes, and `and` and `or`
are conditionals. The two sides of such an equation take different ways through the evaluator, with
different depths and with different lists around what they evaluate. As errors are settled, this
does not show. -/
namespace EmbeddedLisp

open EmbeddedLisp.Action Evaluation Form

/-- The form of a keyword with some parts. -/
def Keyword.form (keyword : Keyword) (parts : List Expression) : Expression :=
  .list (.text keyword.name :: parts)

namespace Evaluation

variable {host : Host} {evaluate : Evaluator} {frame : FrameId}

/-- The head is a keyword, so the form is evaluated as that of the keyword, inside of itself. -/
theorem step_form (keyword : Keyword) (parts : List Expression) :
    step host evaluate (keyword.form parts) frame =
      mapError (Error.inForm (keyword.form parts)) (evaluateForm evaluate frame keyword parts) := by
  simp only [step, Keyword.form, evaluateList, symbol?_bind_ofName?.2 rfl]

/-- The form of a keyword that fails only where something in it does. -/
theorem sameEnds_form {keyword : Keyword} {parts : List Expression}
    (hSettled : Settled (evaluateForm (evalUnlimited host) frame keyword parts)) :
    SameEnds (evalUnlimited host (keyword.form parts) frame)
      (evaluateForm (evalUnlimited host) frame keyword parts) := by
  refine (evalUnlimited_sameEnds host (keyword.form parts) frame).trans (.of_eq ?_)
  rw [step_form, hSettled]

/-- A sequence of forms ends as the forms do one after another. -/
theorem sameEnds_sequence (host : Host) (forms : List Expression) (frame : FrameId) :
    SameEnds (evalUnlimited host (Keyword.sequence.form forms) frame)
      (evaluateBody (evalUnlimited host) frame forms) :=
  sameEnds_form (.evaluateBody (Settled.evalUnlimited host) frame forms)

theorem eval_quote (host : Host) (levels : Nat) (e : Expression) (frame : FrameId) (m : Machine) :
    eval host (levels + 1) (Keyword.quote.form [e]) frame m = .ok (.ofExpression e) m := by
  rw [eval, step_form]
  rfl

/-- What is quoted is not evaluated, so one level is enough. -/
theorem evalUnlimited_quote (host : Host) (e : Expression) (frame : FrameId) (m : Machine) :
    evalUnlimited host (Keyword.quote.form [e]) frame m = .ok (.ofExpression e) m := by
  have hFinished : Finished (eval host 1 (Keyword.quote.form [e]) frame m) := by simp [eval_quote]
  have hUnlimited := evalUnlimited_of_finished hFinished
  rwa [eval_quote] at hUnlimited

/-- There is one value that is not true. -/
theorem eq_false_of_not_isTrue {v : Value} (hFalse : v.isTrue = false) : v = .boolean false := by
  match v with
  | .boolean false => rfl
  | .boolean true | .integer _ | .float _ | .text _ | .list _ | .procedure _ => cases hFalse

/-- A conditional evaluates its test, and then one of two forms by the truth of that. -/
theorem sameEnds_branch (test consequent alternative : Expression) :
    SameEnds (evalUnlimited host (Keyword.branch.form [test, consequent, alternative]) frame)
      (evalUnlimited host test frame >>= fun v =>
        evalUnlimited host (if v.isTrue then consequent else alternative) frame) :=
  sameEnds_form ((Settled.evalUnlimited host test frame).bind fun _ => .evalUnlimited host _ frame)

theorem sameEnds_conjunction (forms : List Expression) :
    SameEnds (evalUnlimited host (Keyword.conjunction.form forms) frame)
      (evaluateUntil (evalUnlimited host) frame false (.boolean true) forms) :=
  sameEnds_form (.evaluateUntil (Settled.evalUnlimited host) frame false (.boolean true) forms)

theorem sameEnds_disjunction (forms : List Expression) :
    SameEnds (evalUnlimited host (Keyword.disjunction.form forms) frame)
      (evaluateUntil (evalUnlimited host) frame true (.boolean false) forms) :=
  sameEnds_form (.evaluateUntil (Settled.evalUnlimited host) frame true (.boolean false) forms)

/-- A conjunction of two forms or more is a conditional on the first one. -/
theorem conjunction_eq_branch (host : Host) (frame : FrameId) (e next : Expression)
    (rest : List Expression) :
    evalUnlimited host (Keyword.conjunction.form (e :: next :: rest)) frame =
      evalUnlimited host
        (Keyword.branch.form [e, Keyword.conjunction.form (next :: rest), .boolean false])
        frame := by
  refine SameEnds.evalUnlimited_eq
    ((sameEnds_conjunction _).trans (.trans ?_ (sameEnds_branch _ _ _).symm))
  refine (SameEnds.refl (evalUnlimited host e frame)).bind fun v => ?_
  cases hTrue : v.isTrue with
  | true => exact (sameEnds_conjunction (next :: rest)).symm
  | false =>
    -- What decides a conjunction is the one value that is not true, and so the alternative.
    cases eq_false_of_not_isTrue hTrue
    exact (evalUnlimited_sameEnds host (.boolean false) frame).symm

/-- A conditional on a disjunction tries the first form, and then the others. -/
theorem branch_disjunction_eq (host : Host) (frame : FrameId)
    (e consequent alternative : Expression) (rest : List Expression) :
    evalUnlimited host
      (Keyword.branch.form [Keyword.disjunction.form (e :: rest), consequent, alternative]) frame =
      evalUnlimited host (Keyword.branch.form [e, consequent,
        Keyword.branch.form [Keyword.disjunction.form rest, consequent, alternative]]) frame := by
  refine SameEnds.evalUnlimited_eq
    ((sameEnds_branch _ _ _).trans (.trans ?_ (sameEnds_branch _ _ _).symm))
  refine ((sameEnds_disjunction (e :: rest)).bind fun _ => .refl _).trans ?_
  simp only [evaluateUntil, bind_assoc]
  refine (SameEnds.refl (evalUnlimited host e frame)).bind fun v => ?_
  cases hTrue : v.isTrue with
  | true =>
    -- The disjunction gives the value of its first form, which is then tested once more.
    simp only [if_true, pure_bind, hTrue]
    exact .refl _
  | false =>
    cases eq_false_of_not_isTrue hTrue
    exact .symm ((sameEnds_branch _ _ _).trans ((sameEnds_disjunction rest).bind fun _ => .refl _))

/-- Names that can be bound at once: symbols, and each of them once. -/
structure DistinctSymbols (names : List String) : Prop where
  nodup : names.Nodup
  symbols : ∀ name ∈ names, literalContents? name = none

theorem expectSymbol_text (binder : Binder) {name : String}
    (hSymbol : literalContents? name = none) :
    expectSymbol binder (.text name) = pure name := by
  simp only [expectSymbol, Expression.symbol?_eq_some_iff.2 ⟨rfl, hSymbol⟩]

/-- Distinct symbols are taken as they are, after those already there. -/
theorem parameterNames_eq_pure {taken names : List String} (hNodup : (taken ++ names).Nodup)
    (hSymbols : ∀ name ∈ names, literalContents? name = none) :
    parameterNames taken (names.map .text) = pure (taken ++ names) := by
  induction names generalizing taken with
  | nil => rw [List.append_nil]; rfl
  | cons name rest ih =>
    obtain ⟨hFirst, hRest⟩ := List.forall_mem_cons.1 hSymbols
    have hFresh : ¬taken.contains name := by
      intro hContains
      exact List.nodup_append.1 hNodup |>.2.2 name (by simpa using hContains) name
        List.mem_cons_self rfl
    rw [← List.singleton_append, ← List.append_assoc] at hNodup
    simp only [List.map_cons, parameterNames, expectSymbol_text .parameter hFirst,
      pure_bind, hFresh, ih hNodup hRest]
    simp

/-- Other parameters are rejected. -/
theorem parameterNames_eq_reject {taken : List String} {parameters : List Expression}
    (hTaken : taken.Nodup)
    (hOther : ∀ names, parameters = names.map .text → (taken ++ names).Nodup →
      ¬∀ name ∈ names, literalContents? name = none) :
    ∃ fault, parameterNames taken parameters = reject fault := by
  induction parameters generalizing taken with
  | nil => exact absurd (by simp) (hOther [] rfl (by simpa using hTaken))
  | cons e rest ih =>
    simp only [parameterNames]
    cases hSymbol : e.symbol? with
    | none =>
      simp only [expectSymbol, hSymbol]
      exact ⟨_, rfl⟩
    | some name =>
      obtain ⟨rfl, hName⟩ := Expression.symbol?_eq_some_iff.1 hSymbol
      simp only [expectSymbol_text .parameter hName, pure_bind]
      by_cases hContains : taken.contains name
      · simp only [hContains, if_true]
        exact ⟨_, rfl⟩
      · have hFresh : name ∉ taken := by simpa using hContains
        simp only [hContains]
        apply ih (List.nodup_append_comm.2 (List.nodup_cons.2 ⟨hFresh, hTaken⟩))
        intro names hRest hNodup hSymbols
        refine hOther (name :: names) (by rw [hRest, List.map_cons]) (by simpa using hNodup) ?_
        exact List.forall_mem_cons.2 ⟨hName, hSymbols⟩

/-- With distinct symbols for parameters nothing can be at fault. -/
theorem makeClosure_eq {names : List String} (hNames : DistinctSymbols names)
    (body : List Expression) (frame : FrameId) :
    makeClosure (names.map .text) body frame = addClosure names (joinBody body) frame := by
  rw [makeClosure, parameterNames_eq_pure (by simpa using hNames.nodup) hNames.symbols]
  rfl

/-- Whatever the parameters are, a closure that is made has the next number. -/
theorem exists_makeClosure {parameters body : List Expression} {m n : Machine} {v : Value}
    (hMade : makeClosure parameters body frame m = .ok v n) :
    ∃ k, v = .procedure (.closure k) ∧ k.id = m.store.closures := by
  by_cases hParameters : ∃ names, parameters = names.map .text ∧ DistinctSymbols names
  · obtain ⟨names, rfl, hNames⟩ := hParameters
    rw [makeClosure_eq hNames, addClosure_apply] at hMade
    cases hMade
    exact ⟨_, rfl, rfl⟩
  · have hOther : ∃ fault, parameterNames [] parameters = reject fault := by
      apply parameterNames_eq_reject .nil
      intro names hSame hNodup hSymbols
      exact hParameters ⟨names, hSame, hNodup, hSymbols⟩
    obtain ⟨fault, hRejected⟩ := hOther
    rw [makeClosure, hRejected] at hMade
    cases hMade

/-- A `lambda` evaluates nothing, so it makes the same closure whatever the evaluator below. -/
theorem step_lambda {names : List String} (hNames : DistinctSymbols names) (e : Expression)
    (rest : List Expression) :
    step host evaluate (Keyword.lambda.form (.list (names.map .text) :: e :: rest)) frame =
      addClosure names (joinBody (e :: rest)) frame := by
  rw [step_form, evaluateForm, makeClosure_eq hNames]
  rfl

theorem evalUnlimited_lambda {names : List String} (hNames : DistinctSymbols names) (e : Expression)
    (rest : List Expression) :
    evalUnlimited host (Keyword.lambda.form (.list (names.map .text) :: e :: rest)) frame =
      addClosure names (joinBody (e :: rest)) frame := by
  funext m
  rw [← step_lambda hNames]
  refine evalUnlimited_sameEnds _ _ _ m (.inr ?_)
  rw [step_lambda hNames]
  trivial

/-- The definition of a procedure binds its name to the closure that a `lambda` makes. -/
theorem definition_eq (host : Host) (frame : FrameId) {name : String}
    (hName : literalContents? name = none) {names : List String} (hNames : DistinctSymbols names)
    (e : Expression) (rest : List Expression) :
    evalUnlimited host (Keyword.define.form (.list (.text name :: names.map .text) :: e :: rest))
      frame = evalUnlimited host (Keyword.define.form [.text name,
        Keyword.lambda.form (.list (names.map .text) :: e :: rest)]) frame := by
  have hShort : evaluateForm (evalUnlimited host) frame .define
      (.list (.text name :: names.map .text) :: e :: rest) =
        addClosure names (joinBody (e :: rest)) frame >>= bindDefinition frame name := by
    simp only [evaluateForm, evaluateDefinition, expectSymbol_text .definition hName, pure_bind,
      makeClosure_eq hNames]
  have hLong : evaluateForm (evalUnlimited host) frame .define
      [.text name, Keyword.lambda.form (.list (names.map .text) :: e :: rest)] =
        addClosure names (joinBody (e :: rest)) frame >>= bindDefinition frame name := by
    simp only [evaluateForm, evaluateDefinition, expectSymbol_text .definition hName, pure_bind,
      evalUnlimited_lambda hNames]
  have hSettled :
      Settled (addClosure names (joinBody (e :: rest)) frame >>= bindDefinition frame name) :=
    fun _ => rfl
  refine SameEnds.evalUnlimited_eq
    (.trans (sameEnds_form ?_) (.trans (.of_eq ?_) (sameEnds_form ?_).symm))
  · rwa [hShort]
  · rw [hShort, hLong]
  · rwa [hLong]

/-- A rejection stays one when it is placed in a form. -/
theorem exists_inForm_rejected (e : Expression) (fault : Fault) (form : Option Expression) :
    ∃ form', (Error.rejected fault form).inForm e = .rejected fault form' := by
  cases form with
  | some form => exact ⟨some form, rfl⟩
  | none =>
    simp only [Error.inForm]
    split
    · exact ⟨none, rfl⟩
    · exact ⟨some e, rfl⟩

/-- A form of a keyword that is rejected. -/
theorem evalUnlimited_form_rejected {keyword : Keyword} {parts : List Expression} {fault : Fault}
    {form : Option Expression} {m : Machine}
    (hRejected : evaluateForm (evalUnlimited host) frame keyword parts m =
      .error (.error (.rejected fault form)) m) :
    ∃ form', evalUnlimited host (keyword.form parts) frame m =
      .error (.error (.rejected fault form')) m := by
  obtain ⟨form', hForm⟩ := exists_inForm_rejected (keyword.form parts) fault form
  have hStep : step host (evalUnlimited host) (keyword.form parts) frame m =
      .error (.error (.rejected fault form')) m := by
    rw [step_form, mapError_apply, hRejected]
    simp only [Interrupt.mapError, hForm]
  refine ⟨form', ?_⟩
  rw [evalUnlimited_sameEnds host (keyword.form parts) frame m (.inr (by simp [hStep])), hStep]

/-- If the parameters are no distinct symbols, both definitions are rejected for that and bind
nothing. -/
theorem definitions_rejected (host : Host) (frame : FrameId) {name : String}
    (hName : literalContents? name = none) {parameters : List Expression}
    (hOther : ¬∃ names, DistinctSymbols names ∧ parameters = names.map .text) (e : Expression)
    (rest : List Expression) (m : Machine) :
    ∃ fault form form',
      evalUnlimited host (Keyword.define.form (.list (.text name :: parameters) :: e :: rest))
        frame m = .error (.error (.rejected fault form)) m ∧
      evalUnlimited host
        (Keyword.define.form [.text name, Keyword.lambda.form (.list parameters :: e :: rest)])
        frame m = .error (.error (.rejected fault form')) m := by
  have hRejected : ∃ fault, parameterNames [] parameters = reject fault := by
    apply parameterNames_eq_reject .nil
    intro names hParameters hNodup hSymbols
    exact hOther ⟨names, ⟨by simpa using hNodup, hSymbols⟩, hParameters⟩
  obtain ⟨fault, hRejected⟩ := hRejected
  have hClosure : makeClosure parameters (e :: rest) frame m =
      .error (.error (.rejected fault none)) m := by
    rw [makeClosure, hRejected]
    rfl
  have hShort : evaluateForm (evalUnlimited host) frame .define
    (.list (.text name :: parameters) :: e :: rest) m =
      .error (.error (.rejected fault none)) m := by
    simp only [evaluateForm, evaluateDefinition, expectSymbol_text .definition hName, pure_bind]
    simp only [Bind.bind, EStateM.bind, hClosure]
  -- In the long form the `lambda` is rejected, and the error names it rather than the definition
  -- around it.
  have hMade : evaluateForm (evalUnlimited host) frame .lambda (.list parameters :: e :: rest) m =
      .error (.error (.rejected fault none)) m := hClosure
  obtain ⟨inner, hLambda⟩ := evalUnlimited_form_rejected hMade
  have hLong : evaluateForm (evalUnlimited host) frame .define
      [.text name, Keyword.lambda.form (.list parameters :: e :: rest)] m =
        .error (.error (.rejected fault inner)) m := by
    simp only [evaluateForm, evaluateDefinition, expectSymbol_text .definition hName, pure_bind]
    simp only [Bind.bind, EStateM.bind, hLambda]
  obtain ⟨form, hForm⟩ := evalUnlimited_form_rejected hShort
  obtain ⟨form', hForm'⟩ := evalUnlimited_form_rejected hLong
  exact ⟨fault, form, form', hForm, hForm'⟩

end Evaluation

end EmbeddedLisp
