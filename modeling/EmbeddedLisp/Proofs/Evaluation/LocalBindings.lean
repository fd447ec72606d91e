import EmbeddedLisp.Proofs.Evaluation.DerivedForms
import EmbeddedLisp.Proofs.Evaluation.Renumbering

/-! A `let` and the application that stands for it. Both evaluate the initial forms one after the
other and the body in a new frame below. The application makes a closure first, so every closure
made after it gets the next number. -/
namespace EmbeddedLisp

open EmbeddedLisp.Action Evaluation Form
open Coupling
  (renumbering renumbering_lawful renumbering_inLockstep renumbering_addFrame entries_zip)

namespace Evaluation

variable {host : Host} {evaluate : Evaluator} {frame : FrameId}

section

variable (evaluate) (frame) (names : List String) (inits : List Expression)
  (run : FrameId → Action Value)

/-- Evaluates initial forms and goes on in a new frame that binds their values. -/
def bindAll : Action Value := do
  let vs ← inits.mapM (evaluate · frame)
  let inner ← addFrame (names.zip vs) (some frame)
  run inner

/-- The same with the event of a call. -/
def callWith : Action Value := do
  let vs ← inits.mapM (evaluate · frame)
  record (.applying names vs.length)
  let inner ← addFrame (names.zip vs) (some frame)
  run inner

end

theorem mapM_bind_congr {α β : Type} {f : Expression → Action α} {forms : List Expression}
    {g h : List α → Action β} (hSame : ∀ xs, xs.length = forms.length → g xs = h xs) :
    forms.mapM f >>= g = forms.mapM f >>= h := by
  induction forms generalizing g h with
  | nil => simpa using hSame [] rfl
  | cons e rest ih =>
    simp only [List.mapM_cons, bind_assoc, pure_bind]
    refine congrArg (f e >>= ·) (funext fun x => ih fun xs hLength => hSame (x :: xs) ?_)
    simp [hLength]

/-- Bindings of distinct symbols evaluate all the initial forms, one after the other. -/
theorem evaluateBindings_eq (evaluate : Evaluator) (frame : FrameId)
    {bindings : List (String × Expression)} {entries : List (String × Value)}
    (hNodup : (entries.map (·.1) ++ bindings.map (·.1)).Nodup)
    (hSymbols : ∀ name ∈ bindings.map (·.1), literalContents? name = none) :
    evaluateBindings evaluate frame entries (bindings.map fun b => .list [.text b.1, b.2]) =
      (bindings.map (·.2)).mapM (evaluate · frame) >>= fun vs =>
        pure (entries ++ (bindings.map (·.1)).zip vs) := by
  induction bindings generalizing entries with
  | nil => simp [evaluateBindings]
  | cons b rest ih =>
    obtain ⟨hFirst, hRest⟩ := List.forall_mem_cons.1 hSymbols
    have hFresh : ¬entries.any (·.1 = b.1) := by
      intro hAny
      obtain ⟨entry, hMem, hName⟩ := List.any_eq_true.1 hAny
      exact (List.nodup_append.1 hNodup).2.2 entry.1 (List.mem_map_of_mem hMem) b.1
        List.mem_cons_self
        (of_decide_eq_true hName)
    simp only [List.map_cons, evaluateBindings, expectSymbol_text .binding hFirst,
      pure_bind, hFresh, List.mapM_cons, bind_assoc]
    refine congrArg (evaluate b.2 frame >>= ·) (funext fun v => ?_)
    have hMore : ((entries ++ [(b.1, v)]).map (·.1) ++ rest.map (·.1)).Nodup := by
      simpa using hNodup
    simp [ih hMore hRest]

/-- A `let` of distinct symbols, made of these with their initial forms. -/
def bindForm (bindings : List (String × Expression)) (body : List Expression) : Expression :=
  Keyword.bind.form (.list (bindings.map fun b => .list [.text b.1, b.2]) :: body)

/-- The procedure that is applied in place of a `let`. -/
def lambdaForm (names : List String) (body : List Expression) : Expression :=
  Keyword.lambda.form (.list (names.map .text) :: body)

/-- The application that stands for a `let`. -/
def applicationForm (bindings : List (String × Expression)) (body : List Expression) : Expression :=
  .list (lambdaForm (bindings.map (·.1)) body :: bindings.map (·.2))

/-- A `let` of distinct symbols evaluates its initial forms and then its body in a new frame. -/
theorem evaluateForm_bind {bindings : List (String × Expression)}
    (hNames : DistinctSymbols (bindings.map (·.1))) (e : Expression) (rest : List Expression) :
    evaluateForm evaluate frame .bind
      (.list (bindings.map fun b => .list [.text b.1, b.2]) :: e :: rest) =
      bindAll evaluate frame (bindings.map (·.1)) (bindings.map (·.2)) fun inner =>
        evaluateBody evaluate inner (e :: rest) := by
  have hNodup : (([] : List (String × Value)).map (·.1) ++ bindings.map (·.1)).Nodup := hNames.nodup
  simp only [evaluateForm, bindAll, evaluateBindings_eq evaluate frame hNodup hNames.symbols,
    bind_assoc, pure_bind, List.nil_append]

theorem evaluateList_application {names : List String} {body : List Expression}
    {inits : List Expression}
    (hLambda : evaluate (lambdaForm names body) frame = addClosure names (joinBody body) frame)
    (hLength : names.length = inits.length) :
    evaluateList host evaluate (lambdaForm names body) inits frame =
      addClosure names (joinBody body) frame >>= fun _ =>
        callWith evaluate frame names inits fun inner => evaluate (joinBody body) inner := by
  have hHead : (lambdaForm names body).symbol?.bind Keyword.ofName? = none := rfl
  simp only [evaluateList, hHead, hLambda]
  funext m
  refine congrFun (mapM_bind_congr fun vs hValues => ?_) _
  simp only [applyWith, callClosure, hLength, hValues, if_true]

section

variable {Ids : Nat → Nat → Prop} {names : List String} {inits : List Expression}

/-- Which numbers of closures stand for each other once the second side has made one closure more: a
closure that is there keeps its number, and a later one has the next number on the second side. -/
structure Shifts (Ids : Nat → Nat → Prop) (s : Store) : Prop where
  held : ∀ k, s.Holds (.closure k) → Ids k.id k.id
  made : ∀ i, s.closures ≤ i → Ids i (i + 1)

theorem Shifts.machines {m : Machine} (h : Shifts Ids m.store) :
    (renumbering Ids).Machines () m
      { m with store := { m.store with closures := m.store.closures + 1 } } := by
  refine ⟨(SameFrames.refl h.held).withClosures _ _, fun i => ?_⟩
  have hMade := h.made (m.store.closures + i) (Nat.le_add_right _ _)
  rwa [Nat.add_right_comm] at hMade

/-- The event of a call is not seen in the store. -/
theorem together_bindAll (h : (renumbering Ids).Lawful host)
    (hEvaluate : (renumbering Ids).Evaluators evaluate evaluate) {run : FrameId → Action Value}
    (hRun : ∀ inner, (renumbering Ids).Together () (renumbering Ids).Values (run inner)
      (run inner)) :
    (renumbering Ids).Together () (renumbering Ids).Values
      (bindAll evaluate frame names inits run) (callWith evaluate frame names inits run) := by
  refine h.bind (h.evaluateEach hEvaluate (fun _ _ => trivial) rfl) fun {_ vs vs'} _ hValues => ?_
  have hOpened : (renumbering Ids).Together () (renumbering Ids).Values
      (addFrame (names.zip vs) (some frame) >>= run)
      (addFrame (names.zip vs') (some frame) >>= run) := by
    apply h.bind (renumbering_addFrame (entries_zip names hValues) (some frame))
    intro _ inner inner' _ hInner
    cases hInner
    exact hRun inner
  -- Machines that differ in their events are related in the same way.
  exact fun m n hMachines =>
    hOpened (n := { n with events := .applying names vs'.length :: n.events }) hMachines

/-- How two evaluations end alike: with values that are the same up to the numbers of closures, or
with the same error, and with such stores. -/
inductive Resembles (Ids : Nat → Nat → Prop) : Outcome Value → Outcome Value → Prop where
  | value {v v' : Value} {m n : Machine} (hValues : Alike (Renumbered Ids) v v')
      (hStores : SameFrames Ids m.store n.store) : Resembles Ids (.ok v m) (.ok v' n)
  | interrupt (interrupt : Interrupt) {m n : Machine} (hStores : SameFrames Ids m.store n.store) :
      Resembles Ids (.error interrupt m) (.error interrupt n)

theorem resembles_of_outcomes {left right : Outcome Value}
    (hOutcomes : (renumbering Ids).Outcomes () (renumbering Ids).Values left right) :
    Resembles Ids left right := by
  cases hOutcomes with
  | done _ _ hMachines hResult => exact .value hResult hMachines.1
  | @stopped interrupt _ _ _ _ _ hMachines hInterrupts =>
    cases hInterrupts
    exact .interrupt interrupt hMachines.1
  | outrun hAhead => exact hAhead.elim

theorem Resembles.adaptExcept (f : Interrupt → Interrupt) {a b : Action Value} {m : Machine}
    (h : Resembles Ids (a m) (b m)) : Resembles Ids (a.adaptExcept f m) (b.adaptExcept f m) := by
  simp only [EStateM.adaptExcept]
  generalize a m = left at h ⊢
  generalize b m = right at h ⊢
  cases h with
  | value hValues hStores => exact .value hValues hStores
  | interrupt interrupt hStores => exact .interrupt (f interrupt) hStores

/-- Evaluations without a limit that end like actions in step do. -/
theorem resembles_of_sameEnds {e e' : Expression} {a b : Action Value} {m : Machine}
    (hShifts : Shifts Ids m.store) (hLeft : SameEnds (evalUnlimited host e frame) a)
    (hRight : SameEnds (evalUnlimited host e' frame) b)
    (hOutcomes : (renumbering Ids).Outcomes () (renumbering Ids).Values (a m) (b m)) :
    Resembles Ids (evalUnlimited host e frame m) (evalUnlimited host e' frame m) := by
  have hBoth := hOutcomes.finished_iff (renumbering_inLockstep Ids)
  by_cases hEnds : Finished (a m)
  · rw [hLeft m (.inr hEnds), hRight m (.inr (hBoth.1 hEnds))]
    exact resembles_of_outcomes hOutcomes
  · have hNotLeft : ¬Finished (evalUnlimited host e frame m) := by
      intro hFinished
      exact hEnds (hLeft m (.inl hFinished) ▸ hFinished)
    have hNotRight : ¬Finished (evalUnlimited host e' frame m) := by
      intro hFinished
      exact hEnds (hBoth.2 (hRight m (.inl hFinished) ▸ hFinished))
    rw [evalUnlimited_of_not_finished hNotLeft, evalUnlimited_of_not_finished hNotRight]
    exact .interrupt _ (.refl hShifts.held)

/-- The closure that is made first only moves the numbers of the closures after it. -/
theorem outcomes_application (hHost : host.Respects Ids) {m : Machine}
    (hShifts : Shifts Ids m.store) (hEvaluate : (renumbering Ids).Evaluators evaluate evaluate)
    (names : List String) (inits : List Expression) (body : Expression) (forms : List Expression)
    (frame : FrameId) :
    (renumbering Ids).Outcomes () (renumbering Ids).Values
      (bindAll evaluate frame names inits (evaluateBody evaluate · forms) m)
      ((addClosure names body frame >>= fun _ =>
        callWith evaluate frame names inits (evaluateBody evaluate · forms)) m) := by
  have hLawful := renumbering_lawful hHost
  refine together_bindAll hLawful hEvaluate (fun inner => ?_) hShifts.machines
  exact hLawful.evaluateBody hEvaluate (fun _ _ => trivial) rfl

end

section

variable {names : List String} {inits : List Expression} {run : FrameId → Action Value}
  (hEvaluate : ∀ e frame, Settled (evaluate e frame)) (hRun : ∀ inner, Settled (run inner))

include hEvaluate hRun

theorem Settled.bindAll : Settled (Evaluation.bindAll evaluate frame names inits run) :=
  (Settled.mapM hEvaluate frame inits).bind fun _ => (Settled.addFrame _ _).bind hRun

theorem Settled.application (body : Expression) :
    Settled (addClosure names body frame >>= fun _ => callWith evaluate frame names inits run) := by
  have hMade : Settled (addClosure names body frame) := fun _ => rfl
  have hRecord (event : Event) : Settled (record event) := fun _ => rfl
  refine hMade.bind fun _ => (Settled.mapM hEvaluate frame inits).bind fun vs => ?_
  exact (hRecord _).bind fun _ => (Settled.addFrame _ _).bind hRun

end

theorem evaluateBody_singleton (evaluate : Evaluator) (frame : FrameId) (e : Expression) :
    evaluateBody evaluate frame [e] = evaluate e frame := by
  simp [evaluateBody]

/-- The body of a procedure is evaluated like the forms it is joined from. -/
theorem sameEnds_joinBody (e : Expression) (rest : List Expression) :
    SameEnds (evalUnlimited host (joinBody (e :: rest)) frame)
      (evaluateBody (evalUnlimited host) frame (e :: rest)) := by
  cases rest with
  | nil => exact .of_eq (evaluateBody_singleton _ _ _).symm
  | cons next rest => exact sameEnds_sequence host (e :: next :: rest) frame

theorem SameEnds.callWith {names : List String} {inits : List Expression}
    {run run' : FrameId → Action Value} (hRun : ∀ inner, SameEnds (run inner) (run' inner)) :
    SameEnds (callWith evaluate frame names inits run) (callWith evaluate frame names inits run') :=
  (SameEnds.refl _).bind fun _ => (SameEnds.refl _).bind fun _ => (SameEnds.refl _).bind hRun

section

variable {bindings : List (String × Expression)}

theorem step_bindForm (host : Host) (frame : FrameId)
    (hNames : DistinctSymbols (bindings.map (·.1)))
    (hEvaluate : ∀ e frame, Settled (evaluate e frame)) (e : Expression) (rest : List Expression) :
    step host evaluate (bindForm bindings (e :: rest)) frame =
      bindAll evaluate frame (bindings.map (·.1)) (bindings.map (·.2)) fun inner =>
        evaluateBody evaluate inner (e :: rest) := by
  rw [bindForm, step_form, evaluateForm_bind hNames]
  exact Settled.bindAll hEvaluate (fun inner => Settled.evaluateBody hEvaluate inner (e :: rest)) _

theorem step_applicationForm (host : Host) (frame : FrameId)
    (hEvaluate : ∀ e frame, Settled (evaluate e frame)) {body : List Expression}
    (hLambda : evaluate (lambdaForm (bindings.map (·.1)) body) frame =
      addClosure (bindings.map (·.1)) (joinBody body) frame) :
    step host evaluate (applicationForm bindings body) frame =
      addClosure (bindings.map (·.1)) (joinBody body) frame >>= fun _ =>
        callWith evaluate frame (bindings.map (·.1)) (bindings.map (·.2)) fun inner =>
          evaluate (joinBody body) inner := by
  have hLength : (bindings.map (·.1)).length = (bindings.map (·.2)).length := by simp
  simp only [applicationForm, step, evaluateList_application hLambda hLength]
  exact Settled.application hEvaluate (fun inner => hEvaluate (joinBody body) inner) _ _

theorem unlimited_bindForm (host : Host) (frame : FrameId)
    (hNames : DistinctSymbols (bindings.map (·.1))) (e : Expression) (rest : List Expression)
    {Ids : Nat → Nat → Prop} (hHost : host.Respects Ids) {m : Machine}
    (hShifts : Shifts Ids m.store) :
    Resembles Ids (evalUnlimited host (bindForm bindings (e :: rest)) frame m)
      (evalUnlimited host (applicationForm bindings (e :: rest)) frame m) := by
  have hEvaluate := (renumbering_lawful hHost).evalUnlimited (renumbering_inLockstep Ids)
  apply resembles_of_sameEnds hShifts _ _
    (outcomes_application hHost hShifts hEvaluate (bindings.map (·.1)) (bindings.map (·.2))
    (joinBody (e :: rest)) (e :: rest) frame)
  · apply (evalUnlimited_sameEnds _ _ _).trans
    exact .of_eq (step_bindForm host frame hNames (Settled.evalUnlimited host) e rest)
  · apply (evalUnlimited_sameEnds _ _ _).trans
    rw [step_applicationForm host frame (Settled.evalUnlimited host)
      (evalUnlimited_lambda hNames e rest)]
    exact (SameEnds.refl _).bind fun _ => .callWith fun _ => sameEnds_joinBody e rest

/-- Within a limit that lets the closure be made. -/
theorem limited_bindForm (host : Host) (frame : FrameId)
    (hNames : DistinctSymbols (bindings.map (·.1))) (e : Expression) (limit : Nat)
    {Ids : Nat → Nat → Prop} (hHost : host.Respects Ids) {m : Machine}
    (hShifts : Shifts Ids m.store) :
    Resembles Ids (evalWithin host (limit + 1) (bindForm bindings [e]) frame m)
      (evalWithin host (limit + 1) (applicationForm bindings [e]) frame m) := by
  have hSettled := Settled.eval host (limit + 1)
  have hEvaluate := (renumbering_lawful hHost).eval (limit + 1) 0 (.inl ⟨rfl, rfl⟩)
  have hOutcomes :=
    outcomes_application hHost hShifts hEvaluate (bindings.map (·.1)) (bindings.map (·.2)) e
      [e] frame
  have hBound := step_bindForm host frame hNames hSettled e []
  have hApplied := step_applicationForm host frame hSettled (step_lambda hNames e [])
  simp only [evaluateBody_singleton] at hOutcomes hBound
  apply Resembles.adaptExcept
  rw [eval, hBound, hApplied]
  exact resembles_of_outcomes hOutcomes

/-- A limit of zero lets neither form evaluate anything inside of it. All that may have happened is
that the `let` has opened its frame, which nothing leads to. -/
theorem unlevelled_bindForm (host : Host) (frame : FrameId)
    (hNames : DistinctSymbols (bindings.map (·.1))) (e : Expression) (m : Machine) :
    ∃ after, evalWithin host 0 (bindForm bindings [e]) frame m =
      .error (.error (.tooDeep 0)) after ∧
      evalWithin host 0 (applicationForm bindings [e]) frame m = .error (.error (.tooDeep 0)) m ∧
      m.store.KeptOutside (fun _ => False) after.store := by
  have hBound := step_bindForm host frame hNames (Settled.eval host 0) e []
  have hCut {after : Machine} (hRun : eval host (0 + 1) (bindForm bindings [e]) frame m =
    .error .outOfLevels after) :
      evalWithin host 0 (bindForm bindings [e]) frame m = .error (.error (.tooDeep 0)) after := by
    simp only [evalWithin, EStateM.adaptExcept, hRun]
  cases bindings with
  | nil =>
    refine ⟨{ m with store := (m.store.addFrame (.ofList []) (some frame)).2 }, hCut ?_, rfl,
      (Store.KeptOutside.refl _ _).addFrame _ _⟩
    rw [eval, hBound]
    rfl
  | cons b rest =>
    refine ⟨m, hCut ?_, rfl, .refl _ _⟩
    rw [eval, hBound]
    rfl

end

/-- Forms that agree with what they stand for, from every machine. For a `let` of distinct symbols
this is the application of a procedure, which makes a closure of its own: the values and stores are
the same up to the numbers of closures, which the host has to leave alone. The definition of a
procedure is the definition of what `lambda` makes; with parameters that are not distinct symbols
both are rejected, for the same reason and before they do anything. A conjunction is a conditional,
and a disjunction as a test is taken apart into conditionals. -/
theorem derived_forms_agree (host : Host) (frame : FrameId) :
    (∀ bindings m Ids, DistinctSymbols (bindings.map (·.1)) → host.Respects Ids →
      Shifts Ids m.store →
      (∀ e rest, Resembles Ids (evalUnlimited host (bindForm bindings (e :: rest)) frame m)
        (evalUnlimited host (applicationForm bindings (e :: rest)) frame m)) ∧
      (∀ e limit, Resembles Ids (evalWithin host (limit + 1) (bindForm bindings [e]) frame m)
        (evalWithin host (limit + 1) (applicationForm bindings [e]) frame m)) ∧
      ∀ e, ∃ after, evalWithin host 0 (bindForm bindings [e]) frame m =
        .error (.error (.tooDeep 0)) after ∧
        evalWithin host 0 (applicationForm bindings [e]) frame m = .error (.error (.tooDeep 0)) m ∧
        m.store.KeptOutside (fun _ => False) after.store) ∧
    (∀ name parameters e rest, literalContents? name = none →
      ((∃ names, DistinctSymbols names ∧ parameters = names.map .text) →
        evalUnlimited host (Keyword.define.form (.list (.text name :: parameters) :: e :: rest))
          frame = evalUnlimited host (Keyword.define.form [.text name,
            Keyword.lambda.form (.list parameters :: e :: rest)]) frame) ∧
      ((¬∃ names, DistinctSymbols names ∧ parameters = names.map .text) → ∀ m, ∃ fault form form',
        evalUnlimited host (Keyword.define.form (.list (.text name :: parameters) :: e :: rest))
          frame m = .error (.error (.rejected fault form)) m ∧
        evalUnlimited host
          (Keyword.define.form [.text name, Keyword.lambda.form (.list parameters :: e :: rest)])
          frame m = .error (.error (.rejected fault form')) m)) ∧
    (∀ e next rest, evalUnlimited host (Keyword.conjunction.form (e :: next :: rest)) frame =
      evalUnlimited host
        (Keyword.branch.form [e, Keyword.conjunction.form (next :: rest), .boolean false]) frame) ∧
    ∀ e rest consequent alternative,
      evalUnlimited host
        (Keyword.branch.form [Keyword.disjunction.form (e :: rest), consequent, alternative])
        frame = evalUnlimited host (Keyword.branch.form [e, consequent,
          Keyword.branch.form [Keyword.disjunction.form rest, consequent, alternative]]) frame := by
  refine ⟨?_, ?_, conjunction_eq_branch host frame, ?_⟩
  · intro bindings m Ids hNames hHost hShifts
    refine ⟨fun e rest => ?_, fun e limit => ?_, fun e => ?_⟩
    · exact unlimited_bindForm host frame hNames e rest hHost hShifts
    · exact limited_bindForm host frame hNames e limit hHost hShifts
    · exact unlevelled_bindForm host frame hNames e m
  · intro name parameters e rest hName
    refine ⟨fun hGood => ?_, fun hOther m => ?_⟩
    · obtain ⟨names, hNames, rfl⟩ := hGood
      exact definition_eq host frame hName hNames e rest
    · exact definitions_rejected host frame hName hOther e rest m
  · intro e rest consequent alternative
    exact branch_disjunction_eq host frame e consequent alternative rest

/-- A procedure that keeps what it is made with, in a store that holds a closure already; and a
definition with a parameter that is there twice. -/
theorem derived_forms_agree_keep :
    let host : Host := [.ofOperation "first" Builtin.car.operation]
    let kept : Closure := ⟨0, ["y"], .text "y", 0⟩
    let m : Machine := ⟨⟨#[⟨.ofList [("kept", .procedure (.closure kept))], none⟩], 1⟩, []⟩
    let Ids : Nat → Nat → Prop := fun i j => j = if i < 1 then i else i + 1
    let bindings : List (String × Expression) :=
      [("x", .integer 1), ("f", lambdaForm ["x"] [.list [.text "kept", .text "x"]])]
    let body : Expression := lambdaForm [] [.list [.text "f", .text "x"]]
    DistinctSymbols (bindings.map (·.1)) ∧ host.Respects Ids ∧ Shifts Ids m.store ∧
      Resembles Ids (evalUnlimited host (bindForm bindings [.text "f", body]) 0 m)
        (evalUnlimited host (applicationForm bindings [.text "f", body]) 0 m) ∧
      (¬∃ names, DistinctSymbols names ∧ [Expression.text "x", .text "x"] = names.map .text) ∧
      ∃ fault form form',
        evalUnlimited host
          (Keyword.define.form [.list [.text "g", .text "x", .text "x"], body])
          0 m = .error (.error (.rejected fault form)) m ∧
        evalUnlimited host
          (Keyword.define.form
            [.text "g", Keyword.lambda.form [.list [.text "x", .text "x"], body]])
          0 m = .error (.error (.rejected fault form')) m := by
  intro host kept m Ids bindings body
  have hNames : DistinctSymbols (bindings.map (·.1)) := ⟨by decide, by decide⟩
  have hHost : host.Respects Ids := by
    apply Host.respects_of_parametric
    intro procedure hMem
    exact ⟨"first", _, List.mem_singleton.1 hMem, Builtin.car.operation_parametric⟩
  have hHeld (k : Closure) (hHolds : m.store.Holds (.closure k)) : k = kept := by
    obtain ⟨f, name, v, hFound, hMem⟩ := hHolds
    match f with
    | 0 =>
      have hEntry : (name, v) ∈ _ := Bindings.mem_of_find?_ofList hFound
      cases List.mem_singleton.1 hEntry
      cases List.mem_singleton.1 hMem
      rfl
    | f + 1 => cases hFound
  have hShifts : Shifts Ids m.store := by
    refine ⟨fun k hHolds => ?_, fun i hLe => ?_⟩
    · cases hHeld k hHolds
      rfl
    · exact (if_neg (Nat.not_lt_of_le hLe)).symm
  have hTwice : ¬∃ names, DistinctSymbols names ∧
      [Expression.text "x", .text "x"] = names.map .text := by
    rintro ⟨names, hDistinct, hSame⟩
    match names, hSame with
    | [_, _], hSame =>
      cases hSame
      exact absurd hDistinct.nodup (by decide)
  obtain ⟨hLet, hDefine, -⟩ := derived_forms_agree host 0
  exact ⟨hNames, hHost, hShifts, (hLet bindings m Ids hNames hHost hShifts).1 (.text "f")
    [body], hTwice, (hDefine "g" [.text "x", .text "x"] body [] (by decide)).2 hTwice m⟩

end Evaluation

end EmbeddedLisp
