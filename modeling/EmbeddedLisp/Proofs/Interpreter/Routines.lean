import EmbeddedLisp.Proofs.Interpreter.Shadowing

/-! Procedures of a host that are given the frame they are called from. Such a procedure is a
routine: it asks for operations, as a client does, and goes on from what it is given. It may
evaluate forms, make frames and change bindings, and what it is to remember it can bind in the
frames of the closures that it was made with.

Nothing new comes of that: a client of a host without procedures can keep up with the whole. So what
is true of every store that clients come to is true with such procedures as well. -/
namespace EmbeddedLisp

open EmbeddedLisp.Action Evaluation Coupling

namespace Client

/-- What a procedure of the host does when it is called: it comes to an end, or it asks for an
operation and goes on from what it is given, or from the error. How it goes on may depend on all
that there is to be seen then. -/
inductive Routine where
  | ended (result : Except Error Value)
  | asks (operation : Operation) (next : Except Error Handout → Machine → Routine)

/-- Runs a routine. It goes on after an operation that fails, though not after one that does not
end. -/
def Routine.run (perform : Operation → Action Handout) : Routine → Action Value
  | ended (.ok v) => pure v
  | ended (.error error) => fail error
  | asks operation next => fun m =>
    match perform operation m with
    | .ok handout after => (next (.ok handout) after).run perform after
    | .error (.error error) after => (next (.error error) after).run perform after
    | .error .outOfLevels after => .error .outOfLevels after

/-- What the procedures of a host do, by name, with arguments and from a frame. -/
abbrev Routines := String → List Value → FrameId → Machine → Routine

/-- How native procedures are called if those of the host are routines. Calls may be nested in
calls, by way of the forms that a routine evaluates, and count as without an end where they are
nested more deeply than this. -/
def callBy (routines : Routines) (host : Host) : (nested : Nat) → Caller
  | 0 => fun native arguments _ =>
    match native with
    | .builtin procedure => ofExcept (procedure.operation.call arguments)
    | .host _ => throw .outOfLevels
  | nested + 1 => fun native arguments frame =>
    match native with
    | .builtin procedure => ofExcept (procedure.operation.call arguments)
    | .host name => fun m =>
      (routines name arguments frame m).run
        (Operation.performBy (callBy routines host nested) host) m

variable {host : Host} {captured : List Closure} {x y z : Client}

/-- A routine that asks for nothing but what a client could ask for that is given what the routine
is given. -/
inductive Routine.Entitled (host : Host) (captured : List Closure) : Client → Routine → Prop where
  | answers {x : Client} {v : Value} (hKnown : ∀ p ∈ v.procedures, x.Knows captured p) :
      Entitled host captured x (ended (.ok v))
  | fails (x : Client) (error : Error) : Entitled host captured x (ended (.error error))
  | asks {x : Client} {operation : Operation} {next : Except Error Handout → Machine → Routine}
      (hPermits : x.Permits host captured operation)
      (hGiven : ∀ handout machine,
        Entitled host captured (x.conclude (.ok handout machine)) (next (.ok handout) machine))
      (hRefused : ∀ error machine,
        Entitled host captured (x.conclude (.error (.error error) machine))
        (next (.error error) machine)) :
      Entitled host captured x (asks operation next)

/-- What a routine starts with: the frame that it is called from, its arguments, and the closures
that the procedures of the host were made with. -/
def called (captured : List Closure) (arguments : List Value) (frame : FrameId)
    (machine : Machine) : Client :=
  ⟨machine, [frame], captured.map (fun k => .procedure (.closure k)) ++ arguments⟩

/-- Routines without other means than they have been given. -/
def Routines.Entitled (host : Host) (captured : List Closure) (routines : Routines) : Prop :=
  ∀ name arguments frame machine,
    (routines name arguments frame machine).Entitled host captured
    (called captured arguments frame machine)

/-- A client that covers another one still does when both have been given the same. -/
theorem Covers.handed (hCovers : y.Covers x) {handout handout' : Handout}
    (hHanded : y.Handed captured handout handout') (machine : Machine) :
    y.Covers (x.conclude (.ok handout machine)) := by
  obtain ⟨-, hFrames, hValues⟩ := hHanded
  constructor
  · intro f hMem
    exact (List.mem_append.1 hMem).elim (hFrames f) (hCovers.frames f)
  · intro k hHas
    obtain ⟨v, hMem, hProcedure⟩ := hHas
    rcases List.mem_append.1 hMem with hGiven | hBefore
    · exact hValues v hGiven _ hProcedure
    · exact hCovers.closures ⟨v, hBefore, hProcedure⟩

/-- From one operation to the next the client keeps up with a routine. -/
theorem Routine.Entitled.together_run {caller : Caller} (h : (shadowing captured).Lawful caller)
    {routine : Routine} (hEntitled : routine.Entitled host captured x) (hCovers : y.Covers x) :
    (shadowing captured).Together y (shadowing captured).Values
      (routine.run (Operation.performBy caller host))
        (routine.run (Operation.performBy caller host)) := by
  induction hEntitled generalizing y with
  | answers hKnown => exact h.pure ⟨rfl, fun p hMem => hCovers.knows (hKnown p hMem)⟩
  | fails x error => exact h.fail error
  | asks hPermits _ _ ihGiven ihRefused =>
    rename_i x operation next _ _
    intro m n hMachines
    have hOutcomes := shadowing_performBy h (hCovers.permits hPermits) hMachines
    simp only [Routine.run]
    generalize operation.performBy caller host m = left at hOutcomes ⊢
    generalize operation.performBy caller host n = right at hOutcomes ⊢
    cases hOutcomes with
    | done later hLater hMachines hHanded =>
      rename_i handout _ after _
      obtain ⟨rfl, hAccounts⟩ := hMachines
      cases hHanded.1
      have hLaterCovers := ((Covers.of_leads hLater).trans hCovers).handed hHanded after
      exact h.rebase hLater (ihGiven handout after hLaterCovers ⟨rfl, hAccounts⟩)
    | stopped later hLater hMachines hInterrupts =>
      rename_i i _ after _
      obtain ⟨rfl, hAccounts⟩ := hMachines
      cases hInterrupts
      cases i with
      -- The routine is told of an error, and goes on.
      | error error =>
        have hLaterCovers := (Covers.of_leads hLater).trans hCovers
        exact h.rebase hLater
          (ihRefused error after ⟨hLaterCovers.frames, hLaterCovers.closures⟩ ⟨rfl, hAccounts⟩)
      | outOfLevels => exact .stopped later hLater ⟨rfl, hAccounts⟩ rfl
    | outrun hAhead => exact hAhead.elim

variable {routines : Routines} {nested : Nat}

/-- A client that has the closures of the host and the arguments covers what a routine starts
with. -/
theorem covers_called {name : String} (hKnows : x.Knows captured (.native (.host name)))
    {arguments : List Value} (hArguments : ∀ v ∈ arguments, ∀ p ∈ v.procedures, x.Knows captured p)
    {frame : FrameId} (hFrame : frame ∈ x.frames) (machine : Machine) :
    x.Covers (called captured arguments frame machine) := by
  constructor
  · intro f hMem
    exact List.mem_singleton.1 hMem ▸ hFrame
  · intro k hHas
    obtain ⟨v, hMem, hProcedure⟩ := hHas
    rcases List.mem_append.1 hMem with hCaptured | hArgument
    · obtain ⟨l, hOwn, rfl⟩ := List.mem_map.1 hCaptured
      cases List.mem_singleton.1 hProcedure
      exact hKnows k hOwn
    · exact hArguments v hArgument _ hProcedure

/-- However deeply calls are nested in calls, by induction on that. -/
theorem shadowing_lawful_callBy (hRoutines : routines.Entitled host captured) (nested : Nat) :
    (shadowing captured).Lawful (callBy routines host nested) := by
  induction nested with
  | zero =>
    refine shadowing_lawful (fun _ _ _ => rfl) fun x name arguments frame _ _ _ => ?_
    apply shadowing_together
    intro m hAccounts
    exact .stopped x .refl ⟨rfl, hAccounts⟩ rfl
  | succ nested ih =>
    refine shadowing_lawful (fun _ _ _ => rfl)
      fun x name arguments frame hKnows hArguments hFrame => ?_
    apply shadowing_together
    intro m hAccounts
    have hCovers := covers_called hKnows hArguments hFrame m
    exact (hRoutines name arguments frame m).together_run ih hCovers ⟨rfl, hAccounts⟩

/-- A client on the same store as another one that has everything that the other one has. -/
structure Shadows (captured : List Closure) (y x : Client) : Prop where
  accounts : y.Accounts captured x.machine.store
  frames : ∀ f ∈ x.frames, f ∈ y.frames
  values : ∀ v ∈ x.values, ∀ p ∈ v.procedures, y.Knows captured p

namespace Shadows

/-- Both clients start with nothing. -/
theorem start (captured : List Closure) : Shadows captured start start where
  accounts := ⟨rfl, fun p hHeld => absurd hHeld (Store.not_holds_empty p)⟩
  frames := nofun
  values := nofun

variable (h : Shadows captured y x)

include h

theorem covers : y.Covers x where
  frames := h.frames
  closures hHas := by
    obtain ⟨v, hMem, hProcedure⟩ := hHas
    exact h.values v hMem _ hProcedure

/-- A closure that there is for one of them there is for the other. -/
theorem live {k : Closure} (hLive : x.Live k) : y.Live k := by
  rcases hLive with hHeld | hHas
  · exact .inl (h.accounts.store ▸ hHeld)
  · exact .inr (h.covers.closures hHas)

/-- A step of a client, next to as many operations as it takes without procedures of the host. -/
theorem exists_after (hRoutines : routines.Entitled host captured) {operation : Operation}
    (hPermits : x.Permits host captured operation) :
    ∃ later, Leads [] captured y later ∧
      Shadows captured later (x.afterBy (callBy routines host nested) host operation) := by
  have hLawful := shadowing_lawful_callBy hRoutines nested
  have hOutcomes := shadowing_performBy hLawful (h.covers.permits hPermits)
    (m := x.machine) (n := x.machine) ⟨rfl, h.accounts⟩
  show ∃ later, Leads [] captured y later ∧
    Shadows captured later
    (x.conclude (operation.performBy (callBy routines host nested) host x.machine))
  generalize operation.performBy (callBy routines host nested) host x.machine = outcome at hOutcomes
  cases hOutcomes with
  | done later hLater hMachines hHanded =>
    have hCovers := Covers.of_leads hLater
    refine ⟨later, hLater, hMachines.2, ?_, ?_⟩
    · intro f hMem
      exact (List.mem_append.1 hMem).elim (hHanded.2.1 f) fun hBefore =>
        hCovers.frames f (h.frames f hBefore)
    · intro v hMem p hProcedure
      rcases List.mem_append.1 hMem with hGiven | hBefore
      · exact hHanded.2.2 v hGiven p hProcedure
      · exact hCovers.knows (h.values v hBefore p hProcedure)
  | stopped later hLater hMachines =>
    have hCovers := Covers.of_leads hLater
    refine ⟨later, hLater, hMachines.2, ?_, ?_⟩
    · intro f hMem
      exact hCovers.frames f (h.frames f hMem)
    · intro v hMem p hProcedure
      exact hCovers.knows (h.values v hMem p hProcedure)
  | outrun hAhead => exact hAhead.elim

/-- A run of a client, by induction on its operations. -/
theorem exists_of_leadsBy (hRoutines : routines.Entitled host captured)
    (hLeads : LeadsBy (callBy routines host nested) host captured x z) :
    ∃ later, Leads [] captured y later ∧ Shadows captured later z := by
  induction hLeads with
  | refl => exact ⟨y, .refl, h⟩
  | tail _ hStep ih =>
    obtain ⟨middle, hMiddle, hShadows⟩ := ih
    obtain ⟨operation, hPermits, rfl⟩ := hStep
    obtain ⟨later, hLater, hAfter⟩ := hShadows.exists_after hRoutines hPermits
    exact ⟨later, hMiddle.trans hLater, hAfter⟩

end Shadows

/-- Procedures of the host lead to no store that a client could not come to without them, and to no
frame and no closure that it could not have there. -/
theorem exists_leads_of_routines (hRoutines : routines.Entitled host captured)
    (hReached : LeadsBy (callBy routines host nested) host captured start x) :
    ∃ y, Leads [] captured start y ∧ y.machine.store = x.machine.store ∧
      (∀ f ∈ x.frames, f ∈ y.frames) ∧ ∀ k, x.Live k → y.Live k := by
  obtain ⟨y, hLeads, hShadows⟩ := (Shadows.start captured).exists_of_leadsBy hRoutines hReached
  exact ⟨y, hLeads, hShadows.accounts.store, hShadows.frames, fun _ hLive => hShadows.live hLive⟩

/-- A procedure that binds a name where it is called from and has a form evaluated there. -/
example :
    let routines : Routines := fun _ arguments frame _ =>
      .asks (.define frame "a" (arguments.headD .nil)) fun _ _ =>
        .asks (.evaluate (some 1) (.list [.text "if", .text "a", .text "a", .text "b"]) frame)
          fun answer _ =>
          match answer with
          | .ok handout => .ended (.ok (handout.values.headD .nil))
          | .error error => .ended (.error error)
    let store : Store := (Store.empty.addFrame .empty none).2
    let outcome := callBy routines [] 1 (.host "bind") [.boolean true] 0 ⟨store, []⟩
    (Outcome.result outcome).toOption.map Value.render = some "#t" := by
  decide +kernel

/-- So with such procedures the scopes stay sound, -/
theorem sound_of_routines (hRoutines : routines.Entitled host captured)
    (hReached : LeadsBy (callBy routines host nested) host captured start x) :
    x.Sound captured := by
  obtain ⟨y, hLeads, hShadows⟩ := (Shadows.start captured).exists_of_leadsBy hRoutines hReached
  have hGoverns : Governs (scoping captured) [] captured := governs_scoping nofun
  obtain ⟨hFollows, -⟩ := hGoverns.follows_of_leads hGoverns.follows_start hLeads
  have hStore : y.machine.store = x.machine.store := hShadows.accounts.store
  constructor
  · exact hStore ▸ hFollows.stores
  · intro f hMem
    exact hStore ▸ hFollows.frames f (hShadows.frames f hMem)
  · intro v hMem p hProcedure
    exact hStore ▸ hGoverns.procedures hFollows (hShadows.values v hMem p hProcedure)

/-- and a closure is equal to none of the others that there are or that come later. -/
theorem equal_closure_iff_of_routines (hRoutines : routines.Entitled host captured)
    (hReached : LeadsBy (callBy routines host nested) host captured start x)
    (hLeads : LeadsBy (callBy routines host nested) host captured x z) {k l : Closure}
    (hLeft : x.Live k) (hRight : z.Live l) :
    (Value.procedure (.closure k)).equal (.procedure (.closure l)) ↔ k = l := by
  obtain ⟨before, hBefore, hFirst⟩ := (Shadows.start captured).exists_of_leadsBy hRoutines hReached
  obtain ⟨later, hLater, hSecond⟩ := hFirst.exists_of_leadsBy hRoutines hLeads
  have hHost : Host.AnswersFrom [] captured := nofun
  exact equal_closure_iff hHost hBefore hLater (hFirst.live hLeft) (hSecond.live hRight)

/-- Makes definitions one after another, and answers. -/
def Routine.defining (frame : FrameId) (v : Value) : List (String × Value) → Routine
  | [] => ended (.ok v)
  | (name, u) :: rest => asks (.define frame name u) fun _ _ => defining frame v rest

/-- What a procedure does that sees no more of its frame than which names are bound in it. -/
def Routine.ofProcedure (procedure : HostProcedure) (arguments : List Value) (frame : FrameId)
    (m : Machine) :
    Routine :=
  match procedure.run arguments (m.store.bindings frame).binds with
  | .error fault => ended (.error (.rejected fault none))
  | .ok answer => defining frame answer.value answer.definitions

/-- The procedures of a host as routines. -/
def Routines.ofHost (host : Host) : Routines := fun name arguments frame m =>
  match host.procedure? name with
  | none => .ended (.error (.unbound name))
  | some procedure => .ofProcedure procedure arguments frame m

/-- The definitions are made in their order, and cannot fail. -/
theorem Routine.run_defining (caller : Caller) (host : Host) (frame : FrameId) (v : Value)
    (entries : List (String × Value)) (m : Machine) :
    (defining frame v entries).run (Operation.performBy caller host) m =
      .ok v { m with store := m.store.defineAll frame entries } := by
  induction entries generalizing m with
  | nil => rfl
  | cons entry rest ih => exact ih { m with store := m.store.define frame entry.1 entry.2 }

/-- As routines the procedures of a host do what they do. -/
theorem callBy_ofHost (host : Host) (nested : Nat) :
    callBy (.ofHost host) host (nested + 1) = callNative host := by
  funext native arguments frame m
  cases native with
  | builtin procedure => rfl
  | host name =>
    simp only [callBy, callNative, Routines.ofHost]
    cases host.procedure? name with
    | none => rfl
    | some procedure =>
      simp only [Routine.ofProcedure, get_bind]
      cases procedure.run arguments (m.store.bindings frame).binds with
      | error fault => rfl
      | ok answer =>
        simp only [Routine.run_defining, Bind.bind, EStateM.bind, Action.ofExcept,
          Pure.pure, EStateM.pure, forM_define_apply]

theorem called_has {k : Closure} (hCaptured : k ∈ captured) (arguments : List Value)
    (frame : FrameId) (machine : Machine) : (called captured arguments frame machine).Has k :=
  ⟨.procedure (.closure k), List.mem_append_left _ (List.mem_map_of_mem hCaptured),
    List.mem_singleton_self _⟩

/-- A routine that is called knows all native procedures, since it has the closures that they may
answer with. -/
theorem called_knows_native (native : Native) (arguments : List Value) (frame : FrameId)
    (machine : Machine) :
    (called captured arguments frame machine).Knows captured (.native native) := by
  cases native with
  | builtin procedure => trivial
  | host name => exact fun k hCaptured => called_has hCaptured arguments frame machine

/-- To define what it can use in a frame that it has, a client needs nothing else. -/
theorem entitled_defining {v : Value} (hValue : ∀ p ∈ v.procedures, x.Knows captured p)
    {frame : FrameId} (hFrame : frame ∈ x.frames) {entries : List (String × Value)}
    (hEntries : ∀ entry ∈ entries, ∀ p ∈ entry.2.procedures, x.Knows captured p) :
    (Routine.defining frame v entries).Entitled host captured x := by
  induction entries generalizing x with
  | nil => exact .answers hValue
  | cons entry rest ih =>
    obtain ⟨hFirst, hRest⟩ := List.forall_mem_cons.1 hEntries
    have hLater (outcome : Outcome Handout) :
        (Routine.defining frame v rest).Entitled host captured (x.conclude outcome) := by
      have hCovers := Covers.conclude x outcome
      apply ih
      · exact fun p hMem => hCovers.knows (hValue p hMem)
      · exact hCovers.frames frame hFrame
      · exact fun entry hMem p hProcedure => hCovers.knows (hRest entry hMem p hProcedure)
    refine .asks ⟨?_, ?_⟩ (fun handout machine => hLater (.ok handout machine))
      fun error machine => hLater (.error (.error error) machine)
    · intro f hMem
      exact List.mem_singleton.1 hMem ▸ hFrame
    · intro u hMem
      exact List.mem_singleton.1 hMem ▸ hFirst

/-- A host that does not make closures up has no other means than it has been given. -/
theorem entitled_ofHost (hHost : host.AnswersFrom captured) :
    (Routines.ofHost host).Entitled host captured := by
  intro name arguments frame machine
  unfold Routines.ofHost
  cases hFind : host.procedure? name with
  | none => exact .fails _ _
  | some procedure =>
    simp only [Routine.ofProcedure]
    cases hAnswer : procedure.run arguments (machine.store.bindings frame).binds with
    | error fault => exact .fails _ _
    | ok answer =>
      let x := called captured arguments frame machine
      have hNatives (native : Native) : x.Knows captured (.native native) :=
        called_knows_native native arguments frame machine
      have hArguments : ∀ u ∈ arguments, ∀ p ∈ u.procedures, x.Knows captured p := by
        intro u hMem p hProcedure
        match p with
        | .native native => exact hNatives native
        | .closure k => exact ⟨u, List.mem_append_right _ hMem, hProcedure⟩
      obtain ⟨hValue, hDefinitions⟩ :=
        hHost.answer (d := acquaintance captured x) (s := machine.store) hNatives
        (fun k hMem => called_has hMem arguments frame machine) (List.mem_of_find?_eq_some hFind)
        hArguments hAnswer
      exact entitled_defining hValue (List.mem_singleton_self frame) hDefinitions

/-- In particular the clients of any such host come to no other stores than those of a host without
procedures. -/
theorem exists_leads_of_host (hHost : host.AnswersFrom captured)
    (hReached : Leads host captured start x) :
    ∃ y, Leads [] captured start y ∧ y.machine.store = x.machine.store ∧
      (∀ f ∈ x.frames, f ∈ y.frames) ∧ ∀ k, x.Live k → y.Live k := by
  have hCalled : LeadsBy (callBy (.ofHost host) host 1) host captured start x := by
    rwa [callBy_ofHost]
  exact exists_leads_of_routines (entitled_ofHost hHost) hCalled

end Client

end EmbeddedLisp
