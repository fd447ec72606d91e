import EmbeddedLisp.Proofs.Evaluation.DerivedForms
import EmbeddedLisp.Proofs.Evaluation.Numbering
import EmbeddedLisp.Proofs.Interpreter.Client
import EmbeddedLisp.Proofs.Interpreter.Isolation
import EmbeddedLisp.Proofs.Value.Equality

/-! Values that are equal, and closures that are the same. A closure is equal to itself alone,
whatever has been done since it was made and however often it was handed on: a client comes by
closures only as they were made, and each of them has its own number. -/
namespace EmbeddedLisp

open EmbeddedLisp.Action Evaluation

namespace Coupling

variable {host : Host} {captured made : List Closure}

theorem numbering_makeGlobalFrame (hHost : host.AnswersFrom captured) :
    (numbering captured).Together made (numbering captured).Frames Interpreter.makeGlobalFrame
      Interpreter.makeGlobalFrame := by
  have h := numbering_lawful hHost
  have hEntries : ∀ entry ∈ Interpreter.constants ++ Interpreter.builtins, ∀ p ∈ entry.2.procedures,
      Numbered captured made p := by
    intro entry hMem p hProcedure
    rcases Interpreter.global_cases hMem with ⟨x, hConstant⟩ | ⟨procedure, hBuiltin⟩
    · rw [hConstant] at hProcedure
      cases hProcedure
    · rw [hBuiltin] at hProcedure
      exact List.mem_singleton.1 hProcedure ▸ .builtin procedure
  refine h.bind (numbering_addFrame hEntries none) fun _ hFrames => ?_
  exact h.bind (numbering_record _) fun _ _ => h.pure hFrames

theorem numbering_renew (hHost : host.AnswersFrom captured) (options : Interpreter.Options)
    (event : Event) :
    (numbering captured).Together made (fun _ i j => i.globalFrame = j.globalFrame)
      (renew options event) (renew options event) := by
  have h := numbering_lawful hHost
  refine h.bind (numbering_record event) fun _ _ => ?_
  refine h.bind (numbering_makeGlobalFrame hHost) fun _ hFrames => ?_
  exact h.pure hFrames

/-- Procedures of the host are installed one after another. No closure is made by that. -/
theorem numbering_install (hHost : host.AnswersFrom captured) {procedures : Host}
    (hProcedures : ∀ procedure ∈ procedures, Numbered captured made
      (.native (.host procedure.name))) (f : FrameId) :
    (numbering captured).Together made (numbering captured).Nothing
      (Interpreter.install procedures f) (Interpreter.install procedures f) := by
  have h := numbering_lawful hHost
  induction procedures generalizing made with
  | nil => exact h.pure trivial
  | cons procedure rest ih =>
    obtain ⟨hFirst, hRest⟩ := List.forall_mem_cons.1 hProcedures
    have hBound : (numbering captured).Together made (numbering captured).Nothing
        (do record (.registering procedure.name)
            define f procedure.name (.procedure (.native (.host procedure.name))))
        (do record (.registering procedure.name)
            define f procedure.name (.procedure (.native (.host procedure.name)))) := by
      refine h.bind (numbering_record _) fun hLater _ => ?_
      apply numbering_define
      intro p hMem
      exact List.mem_singleton.1 hMem ▸ hFirst.mono hLater
    exact h.bind hBound fun hLater _ => ih fun other hMem => (hRest other hMem).mono hLater

end Coupling

namespace Client

open Coupling

variable {host : Host} {captured made : List Closure} {x y : Client}

/-- What a client is given twice, with closures that have been made. -/
def HandedOut (captured later : List Closure) (handout handout' : Handout) : Prop :=
  handout = handout' ∧ ∀ v ∈ handout.values, ∀ p ∈ v.procedures, Numbered captured later p

theorem handFrame_handedOut {later : List Closure} {f g : FrameId} (hSame : f = g) :
    HandedOut captured later (Operation.handFrame f) (Operation.handFrame g) :=
  ⟨congrArg Operation.handFrame hSame, nofun⟩

theorem handValue_handedOut {later : List Closure} {v w : Value}
    (hValues : (numbering captured).Values later v w) :
    HandedOut captured later (Operation.handValue v) (Operation.handValue w) :=
  ⟨congrArg Operation.handValue hValues.1, fun _ hMem => List.mem_singleton.1 hMem ▸ hValues.2⟩

theorem handNothing_handedOut {later : List Closure} (done done' : Unit) :
    HandedOut captured later (Operation.handNothing done) (Operation.handNothing done') :=
  ⟨rfl, nofun⟩

/-- The step of a client, whatever it asks for. -/
theorem together_perform (hHost : host.AnswersFrom captured) {operation : Operation}
    (hValues : ∀ v ∈ operation.values host, ∀ p ∈ v.procedures, Numbered captured made p) :
    (numbering captured).Together made (HandedOut captured) (operation.perform host)
      (operation.perform host) := by
  have h := numbering_lawful hHost
  have hLockstep := numbering_inLockstep captured
  cases operation with
  | root =>
    have hNothing : ∀ entry ∈ ([] : List (String × Value)), ∀ p ∈ entry.2.procedures,
        Numbered captured made p := nofun
    exact h.map (numbering_addFrame hNothing none) handFrame_handedOut
  | child f entries =>
    have hEntries : ∀ entry ∈ entries, ∀ p ∈ entry.2.procedures, Numbered captured made p :=
      fun entry hMem => hValues entry.2 (List.mem_map_of_mem hMem)
    exact h.map (numbering_addFrame hEntries (some f)) handFrame_handedOut
  | globalFrame => exact h.map (numbering_makeGlobalFrame hHost) handFrame_handedOut
  | create options => exact h.map (numbering_renew hHost options _) handFrame_handedOut
  | reset i => exact h.map (numbering_renew hHost i.options _) handFrame_handedOut
  | install f =>
    have hProcedures : ∀ procedure ∈ host, Numbered captured made
        (.native (.host procedure.name)) :=
      fun procedure hMem => hValues _ (List.mem_map_of_mem hMem) _ (List.mem_singleton_self _)
    exact h.map (numbering_install hHost hProcedures f) fun _ => handNothing_handedOut _ _
  | define f name v =>
    exact h.map (numbering_define (hValues v List.mem_cons_self) f name) fun _ =>
      handNothing_handedOut _ _
  | assign f name v =>
    exact h.map (numbering_assign (hValues v List.mem_cons_self) f name) fun _ =>
      handNothing_handedOut _ _
  | lookup f name => exact h.map (numbering_lookup f name) handValue_handedOut
  | list f =>
    apply numbering_together
    intro m hStores
    refine .done made (List.prefix_refl made) ⟨rfl, hStores⟩ ⟨rfl, ?_⟩
    intro v hMem p hProcedure
    obtain ⟨entry, hEntry, rfl⟩ := List.mem_map.1 hMem
    exact hStores.2 p (Store.holds_of_mem_visible hEntry hProcedure)
  | parent f =>
    apply numbering_together
    intro m hStores
    exact .done made (List.prefix_refl made) ⟨rfl, hStores⟩ ⟨rfl, nofun⟩
  | origin k => exact h.pure (handFrame_handedOut rfl)
  | evaluate limit e f =>
    exact h.map (h.evaluate hLockstep limit (e := e) trivial rfl) handValue_handedOut
  | apply v arguments f =>
    have hArguments : List.Forall₂ ((numbering captured).Values made) arguments arguments :=
      List.forall₂_same.2 fun u hMem => ⟨rfl, hValues u (List.mem_cons_of_mem _ hMem)⟩
    exact h.map (h.applyWith (h.evalUnlimited hLockstep) ⟨rfl, hValues v List.mem_cons_self⟩
      hArguments rfl)
      handValue_handedOut
  | source i text =>
    exact h.map (h.evalSource hLockstep (fun _ => trivial) rfl rfl text) handValue_handedOut

/-- The closures that there are: those that a client has been given and those that are bound in some
frame. -/
def Live (x : Client) (k : Closure) : Prop := x.machine.store.Holds (.closure k) ∨ x.Has k

/-- Every closure that there is is in the place of its number. -/
theorem Follows.numbered (h : x.Follows (tally captured made)) {k : Closure} (hLive : x.Live k) :
    Numbered captured made (.closure k) := by
  rcases hLive with hHeld | ⟨v, hMem, hProcedure⟩
  · exact h.stores.2 _ hHeld
  · exact h.values v hMem _ hProcedure

/-- At the start no closure has been made. -/
theorem follows_tally_start : start.Follows (tally captured []) where
  stores := ⟨rfl, fun p hHeld => absurd hHeld (Store.not_holds_empty p)⟩
  frames := nofun
  values := nofun

/-- A step of a client makes closures, and those that were made before keep their numbers. -/
theorem Follows.exists_after (hHost : host.AnswersFrom captured)
    (h : x.Follows (tally captured made)) {operation : Operation}
    (hPermits : x.Permits host captured operation) :
    ∃ later, made <+: later ∧ (x.after host operation).Follows (tally captured later) := by
  have hKnown {p : Procedure} (hKnows : x.Knows captured p) : Numbered captured made p := by
    match p with
    | .native (.builtin procedure) => exact .builtin procedure
    | .native (.host name) => exact .native (fun k hMem => h.numbered (.inr (hKnows k hMem))) _
    | .closure k => exact h.numbered (.inr hKnows)
  have hValues : ∀ v ∈ operation.values host, ∀ p ∈ v.procedures, Numbered captured made p :=
    fun v hMem p hProcedure => hKnown (hPermits.values v hMem p hProcedure)
  have hOutcomes := together_perform hHost hValues ⟨rfl, h.stores⟩
  show ∃ later, made <+: later ∧ (x.conclude (operation.perform host x.machine)).Follows
    (tally captured later)
  generalize operation.perform host x.machine = outcome at hOutcomes
  cases hOutcomes with
  | done later hLater hMachines hHanded =>
    refine ⟨later, hLater, hMachines.2, fun _ _ => trivial, ?_⟩
    intro v hMem
    rcases List.mem_append.1 hMem with hGiven | hBefore
    · exact hHanded.2 v hGiven
    · exact tally_values_mono hLater (h.values v hBefore)
  | stopped later hLater hMachines =>
    exact ⟨later, hLater, hMachines.2, fun _ _ => trivial, fun v hMem =>
      tally_values_mono hLater (h.values v hMem)⟩
  | outrun hAhead => exact hAhead.elim

/-- By induction on the operations, more and more closures have been made. -/
theorem Follows.exists_of_leads (hHost : host.AnswersFrom captured)
    (h : x.Follows (tally captured made)) (hLeads : Leads host captured x y) :
    ∃ later, made <+: later ∧ y.Follows (tally captured later) := by
  induction hLeads with
  | refl => exact ⟨made, List.prefix_refl made, h⟩
  | tail _ hStep ih =>
    obtain ⟨middle, hMiddle, hFollows⟩ := ih
    obtain ⟨operation, hPermits, rfl⟩ := hStep
    obtain ⟨later, hLater, hAfter⟩ := hFollows.exists_after hHost hPermits
    exact ⟨later, hMiddle.trans hLater, hAfter⟩

/-- Of two closures that there are, maybe at different times, both are equal only if they are
one. -/
theorem equal_closure_iff (hHost : host.AnswersFrom captured)
    (hReached : Leads host captured start x) (hLeads : Leads host captured x y) {k l : Closure}
    (hLeft : x.Live k) (hRight : y.Live l) :
    (Value.procedure (.closure k)).equal (.procedure (.closure l)) ↔ k = l := by
  obtain ⟨made, -, hBefore⟩ := follows_tally_start.exists_of_leads hHost hReached
  obtain ⟨later, hLater, hAfter⟩ := hBefore.exists_of_leads hHost hLeads
  constructor
  · intro hEqual
    exact ((hBefore.numbered hLeft).mono hLater).eq_of_id_eq (hAfter.numbered hRight)
      (eq_of_beq hEqual)
  · intro hSame
    cases hSame
    exact Procedure.same_self (.closure k)

/-- A closure that is made is none of those that there are. -/
theorem not_equal_makeClosure (hHost : host.AnswersFrom captured)
    (hReached : Leads host captured start x) (hLeads : Leads host captured x y) {k : Closure}
    (hLive : x.Live k) {parameters body : List Expression} {frame : FrameId} {v : Value}
    {n : Machine} (hMade : Form.makeClosure parameters body frame y.machine = .ok v n) :
    ¬v.equal (.procedure (.closure k)) := by
  obtain ⟨made, -, hBefore⟩ := follows_tally_start.exists_of_leads hHost hReached
  obtain ⟨later, hLater, hAfter⟩ := hBefore.exists_of_leads hHost hLeads
  obtain ⟨l, rfl, hNumber⟩ := exists_makeClosure hMade
  have hOlder : k.id < l.id := by
    rw [hNumber, hAfter.stores.1]
    exact ((hBefore.numbered hLive).mono hLater).id_lt
  intro hEqual
  exact Nat.ne_of_gt hOlder (eq_of_beq hEqual)

/-- Equality of values is symmetric and transitive, and a value is equal to itself exactly if
nothing in it is not a number. Equal values have the same kinds in the same places, and without a
zero the same text. Native procedures are equal exactly if their names are, and closures if their
numbers are. That is to say that they are one: whatever a client has asked for and however it went,
a closure is never equal to another one that there is or that comes later, and one that is made is
equal to none that there was. -/
theorem equality_partial_equivalence :
    (∀ v w : Value, v.equal w → w.equal v) ∧
    (∀ u v w : Value, u.equal v → v.equal w → u.equal w) ∧
    (∀ v : Value, v.equal v ↔ ∀ x ∈ v.floats, x.isNaN = false) ∧
    (∀ v w : Value, v.equal w → w.kinds = v.kinds ∧ w.shape = v.shape ∧
      ((∀ x ∈ v.floats, x.isZero = false) → w.render = v.render)) ∧
    (∀ a b : Native, (Value.procedure (.native a)).equal (.procedure (.native b)) ↔
      a.name = b.name) ∧
    (∀ k l : Closure, (Value.procedure (.closure k)).equal (.procedure (.closure l)) ↔
      k.id = l.id) ∧
    ∀ host captured x y, Host.AnswersFrom host captured →
      Leads host captured start x → Leads host captured x y → ∀ k, x.Live k →
        (∀ l, y.Live l → ((Value.procedure (.closure k)).equal (.procedure (.closure l)) ↔ k = l)) ∧
        ∀ parameters body frame v n, Form.makeClosure parameters body frame y.machine = .ok v n →
          ¬v.equal (.procedure (.closure k)) := by
  refine ⟨?_, ?_, ?_, ?_, fun _ _ => beq_iff_eq, fun _ _ => beq_iff_eq, ?_⟩
  · intro v w hEqual
    exact (Value.equal_iff.1 hEqual).symm.equal
  · intro u v w hFirst hSecond
    exact ((Value.equal_iff.1 hFirst).trans (Value.equal_iff.1 hSecond)).equal
  · intro v
    exact Value.equal_iff.trans v.equals_self_iff
  · intro v w hEqual
    have hEquals := Value.equal_iff.1 hEqual
    obtain ⟨hKinds, hShape⟩ := hEquals.kinds_shape
    exact ⟨hKinds, hShape, hEquals.render_eq⟩
  · intro host captured x y hHost hReached hLeads k hLive
    constructor
    · intro l hLater
      exact equal_closure_iff hHost hReached hLeads hLive hLater
    · intro parameters body frame v n hMade
      exact not_equal_makeClosure hHost hReached hLeads hLive hMade

/-- Two closures of the same text that are made at once, and zeros of either sign next to what is
not a number. -/
theorem equality_partial_equivalence_twins :
    let identity : Expression := .list [.text "lambda", .list [.text "a"], .text "a"]
    let twins : Expression :=
      .list [.text "let", .list [.list [.text "f", identity], .list [.text "g", identity]],
        .integer 0]
    let x := [.root, .evaluate (some 9) twins 0].foldl (after []) start
    let k : Closure := ⟨0, ["a"], .text "a", 0⟩
    let l : Closure := ⟨1, ["a"], .text "a", 0⟩
    let zero (negative : Bool) : Value :=
      .list [.integer 0, .list [.float (.signed negative .zero)]]
    let notANumber : Value := .list [zero false, .list [.float (.nan false)]]
    Host.AnswersFrom [] [] ∧ Leads [] [] start x ∧ x.Live k ∧ x.Live l ∧
      (Value.procedure (.closure k)).equal (.procedure (.closure k)) ∧
      ¬(Value.procedure (.closure k)).equal (.procedure (.closure l)) ∧
      (∃ v n, Form.makeClosure [.text "a"] [.text "a"] 0 x.machine = .ok v n ∧
      ¬v.equal (.procedure (.closure k))) ∧
      (zero false).equal (zero true) ∧ (zero true).equal (zero false) ∧
      (zero false).shape = (zero true).shape ∧ (zero false).render ≠ (zero true).render ∧
      ¬notANumber.equal notANumber := by
  intro identity twins x k l zero notANumber
  have hHost : Host.AnswersFrom [] [] := nofun
  have hReached : Leads [] [] start x := by
    refine .tail (.single ⟨.root, ⟨?_, nofun⟩, rfl⟩) ⟨.evaluate (some 9) twins 0, ⟨?_, nofun⟩, rfl⟩
    · exact nofun
    · exact fun f hMem => hMem
  have hLeft : x.Live k := .inl ⟨1, "f", .procedure (.closure k), rfl, List.mem_singleton_self _⟩
  have hRight : x.Live l := .inl ⟨1, "g", .procedure (.closure l), rfl, List.mem_singleton_self _⟩
  obtain ⟨hSymm, -, hSelf, hKinds, -, -, hClosures⟩ := equality_partial_equivalence
  obtain ⟨hSame, hNew⟩ := hClosures [] [] x x hHost hReached .refl k hLeft
  have hTwin : ¬(Value.procedure (.closure k)).equal (.procedure (.closure l)) := by
    intro hEqual
    have hId := congrArg Closure.id ((hSame l hRight).1 hEqual)
    cases hId
  obtain ⟨v, n, hMade⟩ : ∃ v n, Form.makeClosure [.text "a"] [.text "a"] 0 x.machine = .ok v n :=
    ⟨_, _, rfl⟩
  have hZeros : (zero false).equal (zero true) := by decide
  have hSwapped := hSymm _ _ hZeros
  obtain ⟨-, hShape, -⟩ := hKinds _ _ hSwapped
  have hUnequal : ¬notANumber.equal notANumber := by
    intro hEqual
    have hMem : Binary64.nan false ∈ notANumber.floats :=
      List.mem_cons_of_mem _ (List.mem_singleton_self _)
    have hNumber := (hSelf notANumber).1 hEqual (.nan false) hMem
    cases hNumber
  exact ⟨hHost, hReached, hLeft, hRight, (hSame k hLeft).2 rfl, hTwin,
    ⟨v, n, hMade, hNew _ _ _ v n hMade⟩, hZeros, hSwapped, hShape, by decide, hUnequal⟩

end Client

end EmbeddedLisp
