import EmbeddedLisp.Proofs.Evaluation.DerivedForms

/-! Applications. A list whose head is no keyword is evaluated by evaluating its parts and applying
the first value to the others. The parts are evaluated inside of the list and the procedure is
applied inside of it, but to both it is as if they stood alone: the evaluation of a part ends as it
does without a list around it, and so does the application, but for the list that its error may come
to name. -/
namespace EmbeddedLisp

open EmbeddedLisp.Action

namespace Evaluation

variable {host : Host} {evaluate : Evaluator} {head : Expression} {parts rest : List Expression}
  {frame : FrameId} {m n : Machine}

/-- What the evaluation of several forms comes to. They are evaluated from left to right, each from
the machine that the one before it left, up to the first that fails. -/
inductive EvaluatesEach (evaluate : Evaluator) (frame : FrameId) :
    List Expression → Machine → Outcome (List Value) → Prop where
  | nil {m : Machine} : EvaluatesEach evaluate frame [] m (.ok [] m)
  | cons {e : Expression} {rest : List Expression} {v : Value} {vs : List Value}
      {m n after : Machine}
      (hFirst : evaluate e frame m = .ok v n)
      (hRest : EvaluatesEach evaluate frame rest n (.ok vs after)) :
      EvaluatesEach evaluate frame (e :: rest) m (.ok (v :: vs) after)
  | here {e : Expression} {rest : List Expression} {error : Error} {m n : Machine}
      (hFirst : evaluate e frame m = .error (.error error) n) :
      EvaluatesEach evaluate frame (e :: rest) m (.error (.error error) n)
  | later {e : Expression} {rest : List Expression} {v : Value} {error : Error}
      {m n after : Machine}
      (hFirst : evaluate e frame m = .ok v n)
      (hRest : EvaluatesEach evaluate frame rest n (.error (.error error) after)) :
      EvaluatesEach evaluate frame (e :: rest) m (.error (.error error) after)

theorem mapM_of_ok {e : Expression} {v : Value} (hFirst : evaluate e frame m = .ok v n) :
    (e :: rest).mapM (evaluate · frame) m =
      (do return v :: (← rest.mapM (evaluate · frame))) n := by
  rw [List.mapM_cons]
  simp only [Bind.bind, EStateM.bind, hFirst]

theorem mapM_of_error {e : Expression} {interrupt : Interrupt}
    (hFirst : evaluate e frame m = .error interrupt n) :
    (e :: rest).mapM (evaluate · frame) m = .error interrupt n := by
  rw [List.mapM_cons]
  simp only [Bind.bind, EStateM.bind, hFirst]

/-- An outcome that is described part by part is the outcome of evaluating the parts in turn, and it
is one that the evaluation ends with. -/
theorem EvaluatesEach.mapM_eq {outcome : Outcome (List Value)}
    (hEach : EvaluatesEach evaluate frame parts m outcome) :
    parts.mapM (evaluate · frame) m = outcome ∧ Finished outcome := by
  induction hEach with
  | nil => exact ⟨rfl, trivial⟩
  | cons hFirst hRest ih =>
    refine ⟨?_, trivial⟩
    rw [mapM_of_ok hFirst]
    simp only [Bind.bind, EStateM.bind, ih.1]
    rfl
  | here hFirst => exact ⟨mapM_of_error hFirst, trivial⟩
  | later hFirst hRest ih =>
    refine ⟨?_, trivial⟩
    rw [mapM_of_ok hFirst]
    simp only [Bind.bind, EStateM.bind, ih.1]

/-- The evaluator evaluates forms in turn, and there is no other way to come to an end. -/
theorem evaluatesEach_mapM (parts : List Expression) (m : Machine)
    (hFinished : Finished (parts.mapM (evaluate · frame) m)) :
    EvaluatesEach evaluate frame parts m (parts.mapM (evaluate · frame) m) := by
  induction parts generalizing m with
  | nil => exact .nil
  | cons e rest ih =>
    match hFirst : evaluate e frame m with
    | .ok v n =>
      rw [mapM_of_ok hFirst] at hFinished ⊢
      have hRest := ih n (finished_of_bind hFinished)
      simp only [Bind.bind, EStateM.bind] at hFinished ⊢
      match hEnd : rest.mapM (evaluate · frame) n with
      | .ok vs after => exact .cons hFirst (hEnd ▸ hRest)
      | .error (.error error) after => exact .later hFirst (hEnd ▸ hRest)
      | .error .outOfLevels after => simp [hEnd] at hFinished
    | .error (.error error) n =>
      rw [mapM_of_error hFirst]
      exact .here hFirst
    | .error .outOfLevels n =>
      rw [mapM_of_error hFirst] at hFinished
      exact hFinished.elim

theorem EvaluatesEach.unique {outcome outcome' : Outcome (List Value)}
    (hFirst : EvaluatesEach evaluate frame parts m outcome)
    (hSecond : EvaluatesEach evaluate frame parts m outcome') : outcome = outcome' :=
  hFirst.mapM_eq.1.symm.trans hSecond.mapM_eq.1

/-- How an outcome shows in a list that is evaluated. The list is named in a rejection if neither a
list nor the reason has been named before, and everything else stays as it is. -/
inductive ShownIn (list : Expression) : Outcome Value → Outcome Value → Prop where
  | value (v : Value) (n : Machine) : ShownIn list (.ok v n) (.ok v n)
  | named {fault : Fault} (n : Machine)
      (hBare : occursIn Error.formMark.toList fault.message.toList = false) :
      ShownIn list (.error (.error (.rejected fault none)) n)
      (.error (.error (.rejected fault (some list))) n)
  | kept {error : Error} (n : Machine)
      (hOther : ∀ fault, error = .rejected fault none →
        occursIn Error.formMark.toList fault.message.toList = true) :
      ShownIn list (.error (.error error) n) (.error (.error error) n)

theorem shownIn_inForm (list : Expression) (error : Error) (n : Machine) :
    ShownIn list (.error (.error error) n) (.error (.error (error.inForm list)) n) := by
  match error with
  | .rejected fault none =>
    rw [Error.inForm]
    cases hBare : occursIn Error.formMark.toList fault.message.toList with
    | true =>
      apply ShownIn.kept
      intro fault' hSame
      cases hSame
      exact hBare
    | false => exact .named n hBare
  | .rejected _ (some _) | .reading _ | .unbound _ | .tooDeep _ =>
    apply ShownIn.kept
    intro fault hSame
    cases hSame

/-- How an outcome shows is determined by the outcome and by the list. -/
theorem ShownIn.unique {list : Expression} {plain outcome outcome' : Outcome Value}
    (hFirst : ShownIn list plain outcome) (hSecond : ShownIn list plain outcome') :
    outcome = outcome' := by
  cases hFirst with
  | value v n => cases hSecond; rfl
  | named n hBare =>
    cases hSecond with
    | named => rfl
    | kept _ hOther => simp [hOther _ rfl] at hBare
  | kept n hOther =>
    cases hSecond with
    | named _ hBare => simp [hOther _ rfl] at hBare
    | kept => rfl

/-- An outcome shows in a list as the evaluator has it. -/
theorem shownIn_iff {list : Expression} {a : Action Value} {outcome : Outcome Value} :
    ShownIn list (a m) outcome ↔ mapError (Error.inForm list) a m = outcome ∧ Finished outcome := by
  rw [mapError_apply]
  match a m with
  | .ok v n =>
    constructor
    · intro hShown
      exact ⟨(ShownIn.value v n).unique hShown, by cases hShown; trivial⟩
    · rintro ⟨rfl, -⟩
      exact .value v n
  | .error (.error error) n =>
    constructor
    · intro hShown
      exact ⟨(shownIn_inForm list error n).unique hShown, by cases hShown <;> trivial⟩
    · rintro ⟨rfl, -⟩
      exact shownIn_inForm list error n
  | .error .outOfLevels n =>
    constructor
    · intro hShown
      cases hShown
    · rintro ⟨rfl, hFinished⟩
      exact hFinished.elim

/-- The evaluator takes the parts of a list in turn and then applies the first value to the
others. -/
theorem step_application (hHead : ∀ keyword : Keyword, head ≠ .text keyword.name)
    (hEvaluate : ∀ e frame, Settled (evaluate e frame)) :
    step host evaluate (.list (head :: rest)) frame =
      ((head :: rest).mapM (evaluate · frame) >>= fun
        | [] => pure .nil
        | v :: vs =>
          mapError (Error.inForm (.list (head :: rest))) (applyWith host evaluate v vs frame)) := by
  have hNone : head.symbol?.bind Keyword.ofName? = none := by
    rw [Option.eq_none_iff_forall_ne_some]
    intro keyword hKeyword
    exact hHead keyword (symbol?_bind_ofName?.1 hKeyword)
  -- The errors of the parts are settled, so the list around all of it can be put around the
  -- application alone.
  have hParts := Settled.mapM hEvaluate frame (head :: rest)
  rw [← hParts (.list (head :: rest))]
  simp only [step, evaluateList, hNone]
  rw [List.mapM_cons]
  simp only [mapError_bind, bind_assoc]
  rfl

/-- What an application comes to: the first failure of a part, as it is, or what the application of
the first value to the others comes to, as it shows in the list. -/
inductive Applies (host : Host) (frame : FrameId) (head : Expression) (rest : List Expression)
    (m : Machine) :
    Outcome Value → Prop where
  | stopped {error : Error} {n : Machine}
      (hParts : EvaluatesEach (evalUnlimited host) frame (head :: rest) m
      (.error (.error error) n)) :
      Applies host frame head rest m (.error (.error error) n)
  | applied {v : Value} {vs : List Value} {n : Machine} {outcome : Outcome Value}
      (hParts : EvaluatesEach (evalUnlimited host) frame (head :: rest) m (.ok (v :: vs) n))
      (hShown : ShownIn (.list (head :: rest)) (applyUnlimited host v vs frame n) outcome) :
      Applies host frame head rest m outcome

theorem ends_iff {a b : Action Value} (hSame : SameEnds a b) (m : Machine)
    (outcome : Outcome Value) :
    a m = outcome ∧ Finished outcome ↔ b m = outcome ∧ Finished outcome := by
  constructor
  · rintro ⟨rfl, hFinished⟩
    exact ⟨(hSame m (.inl hFinished)).symm, hFinished⟩
  · rintro ⟨rfl, hFinished⟩
    exact ⟨hSame m (.inr hFinished), hFinished⟩

/-- An application without a limit ends as described, and if it ends in some way then that is
described. -/
theorem applies_iff (hHead : ∀ keyword : Keyword, head ≠ .text keyword.name)
    {outcome : Outcome Value} :
    Applies host frame head rest m outcome ↔
      evalUnlimited host (.list (head :: rest)) frame m = outcome ∧ Finished outcome := by
  rw [ends_iff (evalUnlimited_sameEnds host (.list (head :: rest)) frame),
    step_application hHead (Settled.evalUnlimited host)]
  simp only [Bind.bind, EStateM.bind]
  constructor
  · intro hApplies
    cases hApplies with
    | stopped hParts =>
      rw [hParts.mapM_eq.1]
      exact ⟨rfl, trivial⟩
    | applied hParts hShown =>
      rw [hParts.mapM_eq.1]
      exact shownIn_iff.1 hShown
  · rintro ⟨hSame, hFinished⟩
    have hEach (hEnds : Finished ((head :: rest).mapM (evalUnlimited host · frame) m)) :
        EvaluatesEach (evalUnlimited host) frame (head :: rest) m _ :=
        evaluatesEach_mapM (head :: rest) m hEnds
    cases hParts : (head :: rest).mapM (evalUnlimited host · frame) m with
    | ok values n =>
      rw [hParts] at hSame hEach
      cases values with
      | nil => cases hEach trivial
      | cons v vs => exact .applied (hEach trivial) (shownIn_iff.2 ⟨hSame, hFinished⟩)
    | error interrupt n =>
      rw [hParts] at hSame hEach
      subst hSame
      cases interrupt with
      | error error => exact .stopped (hEach trivial)
      | outOfLevels => exact hFinished.elim

theorem evalUnlimited_symbol {f : String} {g : Value} (hSymbol : literalContents? f = none)
    (hBound : m.store.lookup? frame f = some g) :
    evalUnlimited host (.text f) frame m = .ok g m := by
  have hStep : step host (evalUnlimited host) (.text f) frame m = .ok g m := by
    simp only [step, hSymbol, lookup_apply, hBound]
  rw [evalUnlimited_sameEnds host (.text f) frame m (.inr (by simp [hStep])), hStep]

/-- A quotation of each form. -/
def quotations (es : List Expression) : List Expression := es.map fun e => Keyword.quote.form [e]

/-- Quotations change nothing and come to the data that they quote. -/
theorem evaluatesEach_quotations (host : Host) (frame : FrameId) (es : List Expression)
    (m : Machine) :
    EvaluatesEach (evalUnlimited host) frame (quotations es) m
      (.ok (es.map Value.ofExpression) m) := by
  induction es with
  | nil => exact .nil
  | cons e rest ih => exact .cons (evalUnlimited_quote host e frame m) ih

/-- So with quoted arguments an application of a name is an application of the value that it is
bound to. -/
theorem applies_quotations_iff {f : String} {g : Value} (hSymbol : literalContents? f = none)
    (hBound : m.store.lookup? frame f = some g) (es : List Expression) {outcome : Outcome Value} :
    Applies host frame (.text f) (quotations es) m outcome ↔
      ShownIn (.list (.text f :: quotations es))
        (applyUnlimited host g (es.map Value.ofExpression) frame m) outcome := by
  have hParts : EvaluatesEach (evalUnlimited host) frame (.text f :: quotations es) m
      (.ok (g :: es.map Value.ofExpression) m) :=
    .cons (evalUnlimited_symbol hSymbol hBound) (evaluatesEach_quotations host frame es m)
  constructor
  · intro hApplies
    cases hApplies with
    | stopped hStopped => cases hStopped.unique hParts
    | applied hEach hShown =>
      cases hEach.unique hParts
      exact hShown
  · intro hShown
    exact .applied hParts hShown

/-- Without a limit the depth is counted for nothing: what is evaluated inside of other evaluations
comes to what it comes to on its own. -/
theorem evalAt_none (host : Host) (nested depth : Nat) :
    evalAt host none nested depth = eval host nested := by
  induction nested generalizing depth with
  | zero => rfl
  | succ nested ih =>
    rw [evalAt, ih (depth + 1)]
    rfl

/-- A list that is no special form comes to what its parts and the application of their values come
to, and to no end where those come to none, and the depth makes no difference. In particular a name
that is applied to quotations comes to what the procedure of that name comes to for the quoted
forms. -/
theorem application_is_apply (host : Host) (frame : FrameId) (m : Machine) :
    (∀ nested depth, evalAt host none nested depth = eval host nested) ∧
    (∀ (head : Expression) (rest : List Expression),
      (∀ keyword : Keyword, head ≠ .text keyword.name) →
      ∀ outcome, evalUnlimited host (.list (head :: rest)) frame m = outcome ∧ Finished outcome ↔
        Applies host frame head rest m outcome) ∧
    ∀ (f : String) (g : Value) (es : List Expression), literalContents? f = none →
      (∀ keyword : Keyword, f ≠ keyword.name) → m.store.lookup? frame f = some g →
      ∀ outcome, evalUnlimited host (.list (.text f :: quotations es)) frame m = outcome ∧
        Finished outcome ↔
        ShownIn (.list (.text f :: quotations es))
          (applyUnlimited host g (es.map Value.ofExpression) frame m) outcome := by
  refine ⟨evalAt_none host, ?_, ?_⟩
  · intro head rest hHead outcome
    exact (applies_iff hHead).symm
  · intro f g es hSymbol hName hBound outcome
    have hHead (keyword : Keyword) : Expression.text f ≠ .text keyword.name := by
      intro hSame
      cases hSame
      exact hName keyword rfl
    exact (applies_iff hHead).symm.trans (applies_quotations_iff hSymbol hBound es)

/-- The first element of no list: the rejection comes to name the list that was evaluated. -/
theorem application_is_apply_named :
    let m : Machine := ⟨⟨#[⟨.ofList [("car", .procedure (.native (.builtin .car)))], none⟩], 0⟩, []⟩
    let list : Expression := .list (.text "car" :: quotations [.list []])
    evalUnlimited ([] : Host) list 0 m =
      .error (.error (.rejected .firstOfEmpty (some list))) m := by
  intro m list
  have hName (keyword : Keyword) : "car" ≠ keyword.name := by cases keyword <;> decide
  have hChain : m.store.chain 0 = [0] := by
    unfold Store.chain
    rfl
  have hBound : m.store.lookup? 0 "car" = some (.procedure (.native (.builtin .car))) := by
    rw [Store.lookup?, hChain]
    rfl
  have hShown :
    ShownIn list (applyUnlimited ([] : Host) (.procedure (.native (.builtin .car))) [.nil] 0 m)
      (.error (.error (.rejected .firstOfEmpty (some list))) m) := .named m (by decide)
  exact (((application_is_apply [] 0 m).2.2 "car" _ [.list []] (by decide) hName hBound _).2
    hShown).1

end Evaluation

end EmbeddedLisp
