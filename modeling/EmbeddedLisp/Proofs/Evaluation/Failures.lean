import EmbeddedLisp.Proofs.Evaluation.Culprit
import EmbeddedLisp.Proofs.Evaluation.DerivedForms
import EmbeddedLisp.Proofs.Evaluation.Footprint
import EmbeddedLisp.Proofs.Scope.Ownership

/-! How evaluations fail. An evaluation does not read, so it has no syntax errors, and a limit that
it exceeds is its own. A name that it does not find stands in what it evaluates or in the body of a
closure that it reaches, however many calls and new closures there are in between, and no frame on
the way up binds the name when it is missed. -/
namespace EmbeddedLisp

open EmbeddedLisp.Action Evaluation
open Expression (PartOf)

/-- Whether an error is one of those that forms and procedures fail with. -/
inductive Error.Raised : Error → Prop where
  | unbound (name : String) : Raised (.unbound name)
  | rejected (fault : Fault) (form : Option Expression) : Raised (.rejected fault form)

theorem Error.Raised.inForm {error : Error} (hRaised : error.Raised) (e : Expression) :
    (error.inForm e).Raised := by
  cases hRaised with
  | unbound name => exact .unbound name
  | rejected fault form =>
    obtain ⟨form', hSame⟩ := exists_inForm_rejected e fault form
    rw [hSame]
    exact .rejected fault form'

namespace Evaluation

variable {host : Host} {evaluate : Evaluator} {limit levels depth : Nat} {e : Expression}
  {frame : FrameId}
  {m after : Machine} {error : Error} {name : String}

theorem OwnError.raised {elements : List Expression}
    (hOwn : OwnError host evaluate frame m elements error after) :
    error.Raised := by
  cases hOwn.unplaced with
  | unbound name => exact .unbound name
  | rejected fault => exact .rejected fault none

theorem tooDeep_or_raised (hFails : evalWithin host limit e frame m = .error (.error error) after) :
    error = .tooDeep limit ∨ error.Raised := by
  obtain ⟨depth, origin, -, hRaises⟩ := evalWithin_fails_iff.1 hFails
  cases hRaises with
  | beyond => exact .inl rfl
  | symbol => exact .inr (.unbound _)
  | list _ hOwn => exact .inr (hOwn.raised.inForm _)

/-- An evaluation that fails with some levels does not know how many they are, as it fails in the
same way with one more. -/
theorem raised_of_eval (hFails : eval host levels e frame m = .error (.error error) after) :
    error.Raised := by
  cases levels with
  | zero => cases hFails
  | succ limit =>
    have hFinished : Finished (eval host (limit + 1) e frame m) := by simp [hFails]
    have hMore := eval_add 1 hFinished
    have hWithin : evalWithin host limit e frame m = .error (.error error) after := by
      rw [evalWithin_of_finished hFinished, hFails]
    have hWithinMore : evalWithin host (limit + 1) e frame m = .error (.error error) after := by
      rw [evalWithin_of_finished (hMore ▸ hFinished), hMore, hFails]
    rcases tooDeep_or_raised hWithin with rfl | hRaised
    · rcases tooDeep_or_raised hWithinMore with hLimit | hRaised
      · injection hLimit with hLimit
        omega
      · exact hRaised
    · exact hRaised

/-- Without a limit there is no error of depth. -/
theorem raised_of_evalUnlimited
    (hFails : evalUnlimited host e frame m = .error (.error error) after) :
    error.Raised := by
  have hFinished : Finished (evalUnlimited host e frame m) := by simp [hFails]
  obtain ⟨levels, hLevels⟩ := exists_levels hFinished
  exact raised_of_eval (hLevels ▸ hFails)

/-- A limit is exceeded only if there is one. -/
theorem tooDeep_of_limit {limit : Option Nat}
    (hFails : Interpreter.evaluate host limit e frame m = .error (.error error) after) :
    (∃ exceeded, limit = some exceeded ∧ error = .tooDeep exceeded) ∨ error.Raised := by
  cases limit with
  | none => exact .inr (raised_of_evalUnlimited hFails)
  | some exceeded =>
    rcases tooDeep_or_raised hFails with hDeep | hRaised
    · exact .inl ⟨exceeded, rfl, hDeep⟩
    · exact .inr hRaised

/-- A list misses a name of its own only if it assigns to it, unless a procedure of the host is
called. -/
theorem OwnError.unbound_cases {elements : List Expression}
    (hOwn : OwnError host evaluate frame m elements (.unbound name) after)
    (hBuiltins : AppliesBuiltins evaluate frame m elements) :
    (∃ e, Expression.list elements = Keyword.assign.form [.text name, e]) ∧
      literalContents? name = none ∧ after.store.owner? frame name = none := by
  cases hOwn with
  | @form keyword parts _ _ hFails =>
    cases formError_of_evaluateForm hFails with
    | @unbound _ e hKeyword hParts hSymbol =>
      subst hKeyword hParts
      refine ⟨⟨e, rfl⟩, hSymbol, ?_⟩
      simp only [Form.evaluateForm, expectSymbol_text .assignment hSymbol, pure_bind] at hFails
      simp only [Bind.bind, EStateM.bind, valuesOf, assign_apply] at hFails
      cases hValue : evaluate e frame m with
      | error interrupt n =>
        rw [hValue] at hFails
        cases hFails
      | ok v n =>
        rw [hValue] at hFails
        cases hOwner : n.store.owner? frame name with
        | some owner =>
          simp only [hOwner] at hFails
          cases hFails
        | none =>
          simp only [hOwner] at hFails
          cases hFails
          exact hOwner
  | @application head rest v arguments _ m₂ _ _ hKeyword hHead _ hFails =>
    have hHost (other : String) (hSame : v = .procedure (.native (.host other))) :
        ∀ sought, Interrupt.error (.unbound other) ≠ .error (.unbound sought) := by
      subst hSame
      obtain ⟨procedure, hBuiltin⟩ := hBuiltins head rest _ _ rfl hKeyword hHead
      cases hBuiltin
    have hRejected (fault : Fault) : ∀ sought, Interrupt.error (.rejected fault none) ≠
        .error (.unbound sought) := by
      intro sought hSame
      cases hSame
    have hApplied : Sequential (fun interrupt => ∀ sought, interrupt ≠ .error (.unbound sought))
        fun evaluate => applyWith host evaluate v arguments frame :=
      .applyWith hRejected host arguments frame hHost
    exact absurd rfl (hApplied.own hFails name)

/-- The forms that an evaluation has at hand: the one that it evaluates, and the bodies of the
closures that are bound in the frames that it reaches. -/
inductive AtHand (e : Expression) (s : Store) (f : FrameId) : Expression → Prop where
  | form : AtHand e s f e
  | body {g : FrameId} {name : String} {v : Value} {k : Closure} (hReaches : s.Reaches f g)
      (hFound : (s.bindings g).find? name = some v) (hMem : Procedure.closure k ∈ v.procedures) :
      AtHand e s f k.body

/-- A store in which nothing leads out of the region that an evaluation may come to, and in which
the bodies of the closures in the region come from some forms. -/
structure Traced (base : Store) (own : FrameId → Prop) (Origin : Expression → Prop) (s : Store) :
    Prop where
  footprint : Footprint base own s
  sourced : s.BoundIn (base.Region own) (SourcedProcedures Origin)

variable {base s : Store} {own : FrameId → Prop} {Origin : Expression → Prop}

theorem Traced.start
    (hBuiltins : ∀ native, s.Holds (.native native) → ∃ procedure, native = .builtin procedure)
    (e : Expression) (f : FrameId) : Traced s (s.Reaches f) (AtHand e s f) s where
  footprint := Footprint.start hBuiltins f
  sourced := by
    refine Store.boundIn_region hBuiltins .builtin ?_
    intro g name v k hReaches hFound hMem
    exact .closure (.part (.body hReaches hFound hMem) (.whole k.body))

/-- A run that keeps to its footprint, and in which all forms come from some forms. -/
def tracing (base : Store) (own : FrameId → Prop) (Origin : Expression → Prop) : Discipline where
  Stores := Traced base own Origin
  Frames _ := base.Region own
  Procedures _ p := LocalProcedures (base.Region own) p ∧ SourcedProcedures Origin p
  Forms := Sourced Origin

theorem tracing_define {f : FrameId} {v : Value} (hStores : Traced base own Origin s)
    (hRegion : base.Region own f) (hValue : (tracing base own Origin).Values s v) (name : String) :
    Traced base own Origin (s.define f name v) where
  footprint := hStores.footprint.define hRegion (fun p hMem => (hValue p hMem).1) name
  sourced := Store.BoundIn.define hStores.sourced (fun p hMem => (hValue p hMem).2) f name

theorem tracing_opens {f : FrameId} {entries : List (String × Value)}
    (hStores : Traced base own Origin s) (hRegion : base.Region own f)
    (hEntries : (tracing base own Origin).Entries s entries) :
    (tracing base own Origin).Opens s entries f := by
  refine ⟨⟨?_, ?_⟩, .inr hStores.footprint.size⟩
  · exact hStores.footprint.addFrame hRegion fun entry hEntry p hMem =>
      (hEntries entry hEntry p hMem).1
  · apply Store.BoundIn.addFrame hStores.sourced
    exact fun entry hEntry p hMem => (hEntries entry hEntry p hMem).2

/-- No evaluation gets out of its region, or comes by other forms there. -/
theorem tracing_lawful (base : Store) (own : FrameId → Prop) (Origin : Expression → Prop)
    (host : Host) :
    (tracing base own Origin).Lawful host where
  form_head hForm := hForm.head
  form_rest hForm := hForm.rest
  form_body := Sourced.body
  frames_mono _ := id
  procedures_mono _ := id
  lookup := by
    intro s f name v hStores hFrame _ hFound p hMem
    obtain ⟨g, hChain, hBound⟩ := Store.mem_chain_of_lookup? hFound
    have hRegion := hStores.footprint.chain hFrame g hChain
    exact ⟨hStores.footprint.bindings hRegion hBound p hMem, hStores.sourced hRegion hBound p hMem⟩
  define hStores hFrame hValue name := tracing_define hStores hFrame hValue name
  assign hStores hFrame hValue _ hOwner :=
    tracing_define hStores (hStores.footprint.chain hFrame _ (Store.mem_chain_of_owner? hOwner))
      hValue _
  child hStores hFrame hEntries := tracing_opens hStores hFrame hEntries
  call := by
    rintro s k entries hStores ⟨hLocal, -⟩ hEntries
    cases hLocal with
    | closure hFrame => exact tracing_opens hStores hFrame hEntries
  body := by
    rintro s k ⟨-, hSourced⟩
    cases hSourced with
    | closure hBody => exact hBody
  makes hStores hFrame hForm _ _ :=
    ⟨⟨hStores.footprint.addClosure _, hStores.sourced⟩, .closure hFrame, .closure hForm⟩
  native _ _ hNative := nomatch hNative.1

/-- A name is missed where it is looked up or assigned to, in a frame from which nothing binds it
then. -/
theorem Raises.unbound_cases {task : Task}
    (hRaises : Raises host limit depth task (.unbound name) after)
    (hTask : (tracing base own Origin).Admits task) :
    (task.form = .text name ∨ ∃ e, task.form = Keyword.assign.form [.text name, e]) ∧
      literalContents? name = none ∧
        (∃ origin, Origin origin ∧ (Expression.text name).PartOf origin) ∧
      after.store.owner? task.frame name = none := by
  generalize hError : Error.unbound name = raised at hRaises
  cases hRaises with
  | beyond => cases hError
  | symbol _ hLiteral hUnbound =>
    cases hError
    refine ⟨.inl rfl, hLiteral, ?_, Store.lookup?_eq_none_iff.1 hUnbound⟩
    cases hTask.form with
    | part hOrigin hPart => exact ⟨_, hOrigin, hPart⟩
  | @list elements frame m _ error _ hOwn =>
    -- The list around it leaves the error as it is, so it is the list's own.
    have hCause : error = .unbound name := by
      cases hOwn.raised with
      | unbound other =>
        cases hError
        rfl
      | rejected fault form =>
        obtain ⟨form', hSame⟩ := exists_inForm_rejected (.list elements) fault form
        rw [hSame] at hError
        cases hError
    subst hCause
    have hBuiltins : AppliesBuiltins (evalAt host (some limit) (limit + 2) (depth + 1))
        frame m elements :=
      (tracing_lawful base own Origin host).appliesBuiltins
        (fun hNative => hNative.2.exists_builtin) hTask
    obtain ⟨⟨e, hForm⟩, hLiteral, hOwner⟩ := hOwn.unbound_cases hBuiltins
    obtain ⟨origin, hOrigin, hPart⟩ := hOwn.exists_origin hTask.form
    have hName : (Expression.text name).PartOf (.list elements) := by
      rw [hForm]
      exact .element (.whole _) (by simp)
    exact ⟨.inr ⟨e, hForm⟩, hLiteral, ⟨origin, hOrigin, hName.trans hPart⟩, hOwner⟩

/-- How an evaluation fails, on a store whose native procedures are builtin. It does not fail with a
syntax error, and only the limit that it was given is exceeded. If it misses a name, then the name
is a symbol that stands in the form or in the body of a closure in reach of the frame. An evaluation
on the way looks the name up or assigns to it, and then there is no frame on the chain of its frame
that binds the name. -/
theorem evaluation_failures (host : Host) (limit : Option Nat) (e : Expression) (frame : FrameId)
    (m : Machine)
    (hBuiltins : ∀ native, m.store.Holds (.native native) →
      ∃ procedure, native = .builtin procedure) :
    ∀ error after, Interpreter.evaluate host limit e frame m = .error (.error error) after →
      (∀ p, error ≠ .reading p) ∧ (∀ exceeded, error = .tooDeep exceeded → limit = some exceeded) ∧
      ∀ name, error = .unbound name →
        literalContents? name = none ∧
        (∃ origin, AtHand e m.store frame origin ∧ (Expression.text name).PartOf origin) ∧
        ∃ bound depth form f n,
          evalWithin host bound e frame m = Interpreter.evaluate host limit e frame m ∧
          Arises host bound ⟨e, frame, m⟩ depth ⟨form, f, n⟩ ∧
          Raises host bound depth ⟨form, f, n⟩ (.unbound name) after ∧
          (form = .text name ∨ ∃ e', form = Keyword.assign.form [.text name, e']) ∧
          ∀ g ∈ after.store.chain f, ¬(after.store.bindings g).binds name := by
  intro error after hFails
  refine ⟨?_, ?_, ?_⟩
  · rintro p rfl
    rcases tooDeep_of_limit hFails with ⟨exceeded, -, hDeep⟩ | hRaised
    · cases hDeep
    · cases hRaised
  · rintro exceeded rfl
    rcases tooDeep_of_limit hFails with ⟨given, hLimit, hDeep⟩ | hRaised
    · cases hDeep
      exact hLimit
    · cases hRaised
  · rintro name rfl
    obtain ⟨bound, hBound⟩ := exists_limit hFails
    rw [← hBound] at hFails
    obtain ⟨depth, ⟨form, f, n⟩, hArises, hRaises⟩ := evalWithin_fails_iff.1 hFails
    -- What is at hand at the start is all that forms come from later, those in new closures
    -- included.
    have hStart : (tracing m.store (m.store.Reaches frame) (AtHand e m.store frame)).Admits
        ⟨e, frame, m⟩ :=
      ⟨.part .form (.whole e), .inl .refl, Traced.start hBuiltins e frame⟩
    have hTask := (tracing_lawful _ _ _ host).arises hStart hArises
    obtain ⟨hForm, hLiteral, hOrigin, hOwner⟩ := hRaises.unbound_cases hTask
    exact ⟨hLiteral, hOrigin, bound, depth, form, f, n, hBound, hArises, hRaises, hForm,
      Store.owner?_eq_none_iff.1 hOwner⟩

/-- A procedure from a list, which assigns to a name that is bound only where the procedure is
called from. -/
theorem evaluation_failures_assignment :
    let k : Closure := ⟨0, ["x"], .list [.text "set!", .text "y", .text "x"], 0⟩
    let e : Expression := .list [.list [.text "car", .text "procedures"], .boolean true]
    let m : Machine := ⟨⟨#[⟨.ofList [("car", .procedure (.native (.builtin .car))),
        ("procedures", .list [.procedure (.closure k)])], none⟩,
        ⟨.ofList [("y", .nil)], some 0⟩], 1⟩, []⟩
    (∀ native, m.store.Holds (.native native) → ∃ procedure, native = .builtin procedure) ∧
      Outcome.result (Interpreter.evaluate ([] : Host) (some 2) e 1 m) =
      .error (.error (.unbound "y")) ∧
      ∃ origin, AtHand e m.store 1 origin ∧ (Expression.text "y").PartOf origin := by
  intro k e m
  have hBuiltins (native : Native) (hHeld : m.store.Holds (.native native)) :
      ∃ procedure, native = .builtin procedure := by
    obtain ⟨f, name, v, hFound, hMem⟩ := hHeld
    match f with
    | 0 =>
      have hEntry : (name, v) ∈ _ := Bindings.mem_of_find?_ofList hFound
      simp only [List.mem_cons, Prod.mk.injEq, List.not_mem_nil, or_false] at hEntry
      rcases hEntry with ⟨-, rfl⟩ | ⟨-, rfl⟩
      · cases List.mem_singleton.1 hMem
        exact ⟨.car, rfl⟩
      · cases List.mem_singleton.1 hMem
    | 1 =>
      have hEntry : (name, v) ∈ _ := Bindings.mem_of_find?_ofList hFound
      simp only [List.mem_cons, Prod.mk.injEq, List.not_mem_nil, or_false] at hEntry
      obtain ⟨-, rfl⟩ := hEntry
      cases hMem
    | f + 2 => cases hFound
  have hResult : Outcome.result (Interpreter.evaluate ([] : Host) (some 2) e 1 m) =
      .error (.error (.unbound "y")) := by
    simp only [e, m, k]
    with_unfolding_all rfl
  refine ⟨hBuiltins, hResult, ?_⟩
  cases hFails : Interpreter.evaluate ([] : Host) (some 2) e 1 m with
  | ok v after =>
    rw [hFails] at hResult
    cases hResult
  | error interrupt after =>
    rw [hFails] at hResult
    cases hResult
    exact ((evaluation_failures [] (some 2) e 1 m hBuiltins _ after hFails).2.2 "y" rfl).2.1

end Evaluation

end EmbeddedLisp
