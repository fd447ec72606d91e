import EmbeddedLisp.Proofs.Evaluation.Provenance
import EmbeddedLisp.Proofs.Procedure.Wording
import EmbeddedLisp.Proofs.Reader.Faithful

/-! The list that a rejection names. It is the one whose own step has rejected something, whatever
lists, closures and bodies there are around it: the first list to name itself is the only one, since
the reason for a rejection is in one line and so cannot seem to name a list before. -/
namespace EmbeddedLisp

open EmbeddedLisp.Action Evaluation
open Error (formMark)
open Expression (PartOf Inside Faithful)

/-- The mark has a line break and what stands on its sides has none, so a message can be split at it
in one place only. -/
theorem eq_of_append_formMark {reason place : String} (hReason : OneLine reason)
    (hPlace : OneLine place) {before behind : List Char}
    (hSplit : (reason ++ formMark ++ place).toList = before ++ formMark.toList ++ behind) :
    before = reason.toList ∧ behind = place.toList := by
  obtain ⟨words, hMark, hWords⟩ : ∃ words, formMark.toList = '\n' :: words ∧ '\n' ∉ words :=
    ⟨"  while evaluating: ".toList, rfl, by decide⟩
  have hNone : '\n' ∉ words ++ place.toList := by simpa [hWords, OneLine] using hPlace
  have hSame : before ++ '\n' :: (words ++ behind) =
      reason.toList ++ '\n' :: (words ++ place.toList) := by
    simpa [hMark] using hSplit.symm
  obtain ⟨hBefore, -, hRest⟩ := (List.append_cons_inj_of_notMem hReason hNone).1 hSame.symm
  exact ⟨hBefore.symm, (List.append_cancel_left hRest).symm⟩

theorem mem_of_occursIn {c : Char} {part cs : List Char} (hMem : c ∈ part)
    (hOccurs : occursIn part cs) :
    c ∈ cs := by
  induction cs with
  | nil =>
    cases part with
    | nil => cases hMem
    | cons => cases hOccurs
  | cons first rest ih =>
    rcases Bool.or_eq_true_iff.1 hOccurs with hHere | hLater
    · exact (List.isPrefixOf_iff_prefix.1 hHere).subset hMem
    · exact List.mem_cons_of_mem _ (ih hLater)

/-- A message is the reason, the mark and the form, behind the name of the class of errors. -/
theorem Error.message_rejected (fault : Fault) (e : Expression) :
    Error.message (.rejected fault (some e)) =
      "InvalidProcedureInput: " ++ (fault.message ++ formMark ++ e.render) := by
  have hAssoc (s t u v : String) : s ++ t ++ (u ++ v) = s ++ (t ++ u ++ v) := by
    simp only [String.append_assoc]
  exact hAssoc _ _ _ _

/-- A rejection with a reason in one line names the list that is evaluated. -/
theorem Error.inForm_of_oneLine {fault : Fault} (hReason : OneLine fault.message) (e : Expression) :
    (Error.rejected fault none).inForm e = .rejected fault (some e) := by
  have hNone : ¬occursIn formMark.toList fault.message.toList :=
    fun hOccurs => hReason (mem_of_occursIn (by decide) hOccurs)
  simp only [inForm, hNone, Bool.false_eq_true, if_false]

namespace Evaluation

variable {host : Host} {evaluate : Evaluator} {frame : FrameId} {m after : Machine}

theorem formError_of_evaluateForm {keyword : Keyword} {parts : List Expression} {error : Error}
    (hFails : Form.evaluateForm (valuesOf evaluate) frame keyword parts m =
      .error (.error error) after) :
    FormError keyword parts error := by
  have hForm : Sequential (fun interrupt => ∃ error, interrupt = .error error ∧
    FormError keyword parts error)
      fun evaluate => Form.evaluateForm evaluate frame keyword parts :=
    .evaluateForm (fun {error} hError => ⟨error, rfl, hError⟩) frame
  obtain ⟨_, hSame, hError⟩ := hForm.own hFails
  cases hSame
  exact hError

namespace OwnError

variable {elements : List Expression} {fault : Fault} {error : Error}

theorem unplaced (hOwn : OwnError host evaluate frame m elements error after) :
    Unplaced (.error error) := by
  obtain ⟨head, rest, rfl⟩ : ∃ head rest, elements = head :: rest := by
    cases hOwn <;> exact ⟨_, _, rfl⟩
  exact (sequential_evaluateList host head rest frame).own (ownError_iff.1 hOwn)

/-- Several forms that are evaluated in turn fail only where one of them does. -/
theorem not_sequence (forms : List Expression) :
    ¬OwnError host evaluate frame m (.text Keyword.sequence.name :: forms) error after := by
  intro hOwn
  have hFails := ownError_iff.1 hOwn
  simp only [evaluateList, symbol?_bind_ofName?.2 rfl] at hFails
  have hBody : Sequential (fun _ => False) fun evaluate => Form.evaluateBody evaluate frame forms :=
    .evaluateBody forms frame
  exact hBody.own hFails

/-- The reason for a rejection is in one line if the source is, as long as the native procedures at
hand are builtin. -/
theorem oneLine (hOwn : OwnError host evaluate frame m elements (.rejected fault none) after)
    (hElements : ∀ e, Inside elements e → OneLine e.render)
    (hBuiltins : AppliesBuiltins evaluate frame m elements) : OneLine fault.message := by
  cases hOwn with
  | @form keyword parts _ _ hFails =>
    refine (formError_of_evaluateForm hFails).oneLine fun e hInside => hElements e ?_
    obtain ⟨part, hMem, hPart⟩ := hInside
    exact ⟨part, List.mem_cons_of_mem _ hMem, hPart⟩
  | @application head rest v arguments _ m₂ _ _ hKeyword hHead _ hFails =>
    match v with
    | .procedure (.native native) =>
      obtain ⟨procedure, rfl⟩ := hBuiltins head rest native _ rfl hKeyword hHead
      simp only [applyWith, callNative] at hFails
      cases hCall : procedure.operation.call arguments with
      | ok u =>
        rw [hCall] at hFails
        cases hFails
      | error fault =>
        rw [hCall] at hFails
        cases hFails
        exact (procedure.operation_plain arguments fault hCall).oneLine
    | .procedure (.closure k) =>
      have hClosure :
        Sequential (fun interrupt => ∀ fault, interrupt = .error (.rejected fault none) →
        fault.Plain)
          fun evaluate => callClosure evaluate k arguments := by
        apply Sequential.callClosure
        intro expected given fault hSame
        cases hSame
        trivial
      exact (hClosure.own hFails fault rfl).oneLine
    | .integer _ | .float _ | .text _ | .boolean _ | .list _ =>
      simp only [applyWith] at hFails
      split at hFails
      · cases hFails
      · cases hFails
        exact Fault.Plain.oneLine trivial

end OwnError

/-- The forms that can be read. -/
def Read (e : Expression) : Prop := ∃ options text, Reader.parse options text = .ok e

theorem Sourced.faithful {e : Expression} (hSourced : Sourced Read e) : Faithful false e := by
  induction hSourced with
  | part hRead hPart =>
    obtain ⟨options, text, hParse⟩ := hRead
    exact ((Faithful.of_parse hParse).part hPart).plain
  | joined _ ih => exact .joined ih

/-- An error without a limit is an error within the limit that lets the evaluation through. -/
theorem exists_limit {limit : Option Nat} {e : Expression} {error : Error}
    (hFails : Interpreter.evaluate host limit e frame m = .error (.error error) after) :
    ∃ bound, evalWithin host bound e frame m = Interpreter.evaluate host limit e frame m := by
  cases limit with
  | some bound => exact ⟨bound, rfl⟩
  | none =>
    have hFinished : Finished (evalUnlimited host e frame m) := by
      rw [show evalUnlimited host e frame m = _ from hFails]
      trivial
    obtain ⟨levels, hLevels⟩ := exists_levels hFinished
    rw [hLevels] at hFinished
    cases levels with
    | zero => exact hFinished.elim
    | succ bound => exact ⟨bound, (evalWithin_of_finished hFinished).trans hLevels.symm⟩

/-- A name that is missed within a limit is missed without one. -/
theorem evalUnlimited_of_evalWithin {limit : Nat} {e : Expression} {name : String}
    (hFails : evalWithin host limit e frame m = .error (.error (.unbound name)) after) :
    evalUnlimited host e frame m = .error (.error (.unbound name)) after := by
  by_cases hFinished : Finished (eval host (limit + 1) e frame m)
  · rw [evalUnlimited_of_finished hFinished, ← evalWithin_of_finished hFinished, hFails]
  · obtain ⟨n, hDeep⟩ := evalWithin_of_not_finished hFinished
    rw [hDeep] at hFails
    cases hFails

/-- A rejection comes from the own step of a list, with the reason for it, and the list is named if
the reason does not seem to name one. -/
theorem exists_own_rejection {limit : Nat} {e : Expression} {fault : Fault}
    {form : Option Expression}
    (hFails : evalWithin host limit e frame m = .error (.error (.rejected fault form)) after) :
    ∃ depth elements f n, Arises host limit ⟨e, frame, m⟩ depth ⟨.list elements, f, n⟩ ∧
      OwnError host (evalAt host (some limit) (limit + 2) (depth + 1)) f n elements
        (.rejected fault none) after ∧
      Error.rejected fault form = (Error.rejected fault none).inForm (.list elements) := by
  obtain ⟨depth, origin, hArises, hRaises⟩ := evalWithin_fails_iff.1 hFails
  generalize hError : Error.rejected fault form = raised at hRaises
  cases hRaises with
  | beyond => cases hError
  | symbol => cases hError
  | @list elements f n _ error _ hOwn =>
    have hCause : error = .rejected fault none := by
      match error with
      | .rejected reason place =>
        cases hOwn.unplaced
        simp only [Error.inForm] at hError
        split at hError <;> cases hError <;> rfl
      | .unbound _ | .tooDeep _ | .reading _ => cases hError
    subst hCause
    exact ⟨depth, elements, f, n, hArises, hOwn, rfl⟩

/-- The forms that an evaluation starts from: the one that it evaluates, and the bodies of the
closures that are there. -/
inductive Given (e : Expression) (s : Store) : Expression → Prop where
  | form : Given e s e
  | body {k : Closure} (hHeld : s.Holds (.closure k)) : Given e s k.body

/-- At the start a form is given along with what the store has, if no procedure of a host is in
it. -/
theorem admits_given
    (hBuiltins : ∀ native, m.store.Holds (.native native) →
      ∃ procedure, native = .builtin procedure) (e : Expression) (frame : FrameId) :
    (sourcing (Given e m.store)).Admits ⟨e, frame, m⟩ := by
  refine ⟨.part .form (.whole e), trivial, fun p hHeld => ?_⟩
  cases p with
  | native native =>
    obtain ⟨procedure, rfl⟩ := hBuiltins native hHeld
    exact .builtin procedure
  | closure k => exact .closure (.part (.body hHeld) (.whole k.body))

/-- A list with an error of its own is a part of one of the forms that were given. -/
theorem OwnError.exists_origin {Origin : Expression → Prop} {elements : List Expression}
    {error : Error} (hOwn : OwnError host evaluate frame m elements error after)
    (hForm : Sourced Origin (.list elements)) :
    ∃ origin, Origin origin ∧ (Expression.list elements).PartOf origin := by
  cases hForm with
  | part hOrigin hPart => exact ⟨_, hOrigin, hPart⟩
  | joined => exact absurd hOwn (OwnError.not_sequence _)

/-- The reason for a rejection of a list that can be read back is in one line. -/
theorem OwnError.oneLine_of_faithful {Origin : Expression → Prop} {limit depth : Nat}
    {elements : List Expression} {fault : Fault}
    (hOwn : OwnError host (evalAt host (some limit) (limit + 2) depth) frame m elements
      (.rejected fault none) after) (hTask : (sourcing Origin).Admits ⟨.list elements, frame, m⟩)
    (hFaithful : Faithful false (.list elements)) :
    OneLine fault.message := by
  refine hOwn.oneLine (fun e hInside => ?_) ?_
  · have hWords := (hFaithful.part hInside.partOf).words
    exact e.oneLine_render fun t hMem => oneLine_of_isWord (hWords t hMem).1
  · exact (sourcing_lawful Origin host).appliesBuiltins SourcedProcedures.exists_builtin hTask

/-- A rejection names one list, and that is the innermost one. If the evaluation of a form that was
read is rejected, where all closures come from forms that were read and all native procedures are
builtin, then the message is the reason for the rejection, a mark that is nowhere else in it, and
the text of a list. The text is read back as the list, which is a part of the form or of the body of
a closure, and it is the list's own step that was rejected while all that it asked for had values.
Other errors come out of every evaluation around the one that raised them as they are. -/
theorem failing_list_is_named (host : Host) (limit : Option Nat) {options : Reader.Options}
    {text : String} {e : Expression} (hRead : Reader.parse options text = .ok e) (frame : FrameId)
    (m : Machine)
    (hBuiltins : ∀ native, m.store.Holds (.native native) →
      ∃ procedure, native = .builtin procedure)
    (hBodies : ∀ k, m.store.Holds (.closure k) → Sourced Read k.body) :
    (∀ fault form after,
      Interpreter.evaluate host limit e frame m = .error (.error (.rejected fault form)) after →
      ∃ elements, let l := Expression.list elements
        form = some l ∧
        Error.message (.rejected fault form) =
          "InvalidProcedureInput: " ++ (fault.message ++ formMark ++ l.render) ∧
        (∀ before behind, (fault.message ++ formMark ++ l.render).toList = before ++
          formMark.toList ++ behind → before = fault.message.toList ∧ behind = l.render.toList) ∧
        Reader.parse {} l.render = .ok l ∧
        (l.PartOf e ∧ Reader.parse options l.render = .ok l ∨
          ∃ k, m.store.Holds (.closure k) ∧ l.PartOf k.body) ∧
        ∃ bound depth f n,
          evalWithin host bound e frame m = Interpreter.evaluate host limit e frame m ∧
          Arises host bound ⟨e, frame, m⟩ depth ⟨l, f, n⟩ ∧
          OwnError host (evalAt host (some bound) (bound + 2) (depth + 1)) f n elements
            (.rejected fault none) after) ∧
    (∀ bound depth task sub error after, Asks host bound depth task sub →
      sub.answer (evalAt host (some bound) (bound + 2) (depth + 1)) = .error (.error error) after →
      task.answer (evalAt host (some bound) (bound + 2) depth) = .error (.error error) after) ∧
    ∀ bound depth sub error after, Arises host bound ⟨e, frame, m⟩ depth sub →
      Raises host bound depth sub error after →
      evalWithin host bound e frame m = .error (.error error) after ∧
        ∀ name, error = .unbound name →
          evalUnlimited host e frame m = .error (.error error) after := by
  refine ⟨fun fault form after hFails => ?_, fun _ _ _ _ _ _ hAsks => hAsks.fails,
    fun bound depth sub error after hArises hRaises => ?_⟩
  · obtain ⟨bound, hBound⟩ := exists_limit hFails
    rw [← hBound] at hFails
    obtain ⟨depth, elements, f, n, hArises, hOwn, hError⟩ := exists_own_rejection hFails
    have hTask :=
      (sourcing_lawful (Given e m.store) host).arises (admits_given hBuiltins e frame) hArises
    obtain ⟨origin, hOrigin, hPart⟩ := hOwn.exists_origin hTask.form
    have hWhole : Faithful false origin := by
      cases hOrigin with
      | form => exact (Faithful.of_parse hRead).plain
      | body hHeld => exact (hBodies _ hHeld).faithful
    have hFaithful := hWhole.part hPart
    have hReason := hOwn.oneLine_of_faithful hTask hFaithful
    have hPlace : OneLine (Expression.list elements).render :=
      Expression.oneLine_render _ fun t hMem => oneLine_of_isWord (hFaithful.words t hMem).1
    rw [Error.inForm_of_oneLine hReason] at hError
    cases hError
    have hReads : Reader.parse {} (Expression.list elements).render = .ok (.list elements) :=
      hFaithful.parse fun limit hNone => by cases hNone
    refine ⟨elements, rfl, Error.message_rejected _ _, fun _ _ => eq_of_append_formMark hReason
      hPlace, hReads, ?_, bound, depth, f, n, hBound, hArises, hOwn⟩
    cases hOrigin with
    | form =>
      have hWithin := (Reader.of_parse_eq_ok hRead).2.2.mono hPart.height_le
      exact .inl ⟨hPart, ((Faithful.of_parse hRead).part hPart).parse hWithin⟩
    | body hHeld => exact .inr ⟨_, hHeld, hPart⟩
  · have hFails := hArises.fails hRaises.fails
    refine ⟨hFails, ?_⟩
    rintro name rfl
    exact evalUnlimited_of_evalWithin hFails

/-- A form without its alternatives, in the body of a procedure that is applied where it is made. -/
theorem failing_list_is_named_body :
    let failing : Expression := .list [.text "if", .text "x"]
    let e : Expression :=
      .list [.list [.text "lambda", .list [.text "x"], .integer 1, failing], .boolean true]
    let k : Closure := ⟨0, ["x"], .list [.text "car", .text "x"], 0⟩
    let m : Machine := ⟨⟨#[⟨.ofList [("car", .procedure (.native (.builtin .car))),
      ("first", .procedure (.closure k))], none⟩], 1⟩, []⟩
    Reader.parse {} "((lambda (x) 1 (if x)) #t)" = .ok e ∧
      (∀ native, m.store.Holds (.native native) → ∃ procedure, native = .builtin procedure) ∧
      (∀ k, m.store.Holds (.closure k) → Sourced Read k.body) ∧
      ∃ after, Interpreter.evaluate ([] : Host) (some 3) e 0 m =
          .error (.error (.rejected (.wrongCount (.exactly 3) 1) (some failing))) after ∧
        Reader.parse {} failing.render = .ok failing := by
  intro failing e k m
  have hHeld {p : Procedure} (hHeld : m.store.Holds p) : p = .native (.builtin .car) ∨
      p = .closure k := by
    obtain ⟨f, name, v, hFound, hMem⟩ := hHeld
    match f with
    | 0 =>
      have hEntry : (name, v) ∈ _ := Bindings.mem_of_find?_ofList hFound
      simp only [List.mem_cons, Prod.mk.injEq, List.not_mem_nil, or_false] at hEntry
      rcases hEntry with ⟨-, rfl⟩ | ⟨-, rfl⟩
      · exact .inl (List.mem_singleton.1 hMem)
      · exact .inr (List.mem_singleton.1 hMem)
    | f + 1 => cases hFound
  have hRead : Reader.parse {} "((lambda (x) 1 (if x)) #t)" = .ok e := rfl
  have hBuiltins (native : Native) (hNative : m.store.Holds (.native native)) :
      ∃ procedure, native = .builtin procedure := by
    rcases hHeld hNative with hSame | hSame
    · cases hSame
      exact ⟨.car, rfl⟩
    · cases hSame
  have hBodies (k' : Closure) (hClosure : m.store.Holds (.closure k')) : Sourced Read k'.body := by
    rcases hHeld hClosure with hSame | hSame
    · cases hSame
    · cases hSame
      have hBody : Reader.parse {} "(car x)" = .ok k.body := rfl
      exact .part ⟨{}, "(car x)", hBody⟩ (.whole k.body)
  refine ⟨hRead, hBuiltins, hBodies, _, rfl, ?_⟩
  obtain ⟨elements, hNamed, -, -, hReads, -⟩ :=
    (failing_list_is_named [] (some 3) hRead 0 m hBuiltins hBodies).1 _ _ _ rfl
  cases hNamed
  exact hReads

end Evaluation

end EmbeddedLisp
