import EmbeddedLisp.Proofs.Interpreter.Identity

/-! A client that keeps up with a run. It is a client of a host without procedures, it is always on
the same store as the run, and it has all that comes up there: the frames that forms are evaluated
in, and the closures in values. Whatever the evaluator does to the store, the client can do by an
operation, and so it can do what any operation does, as long as that goes for the procedures of the
host that are called. -/
namespace EmbeddedLisp

open EmbeddedLisp.Action Evaluation

namespace Client

variable {host : Host} {captured : List Closure}

/-- A client that has the frames and the closures that another one has. -/
structure Covers (y x : Client) : Prop where
  frames : ∀ f ∈ x.frames, f ∈ y.frames
  closures : ∀ {k}, x.Has k → y.Has k

namespace Covers

variable {x y z : Client}

theorem refl (x : Client) : x.Covers x := ⟨fun _ => id, id⟩

theorem trans (hFirst : z.Covers y) (hSecond : y.Covers x) : z.Covers x :=
  ⟨fun f hMem => hFirst.frames f (hSecond.frames f hMem), fun hHas =>
    hFirst.closures (hSecond.closures hHas)⟩

/-- With the closures of another client one can use what it can use, -/
theorem knows (hCovers : y.Covers x) {p : Procedure} (hKnows : x.Knows captured p) :
    y.Knows captured p := by
  match p with
  | .native (.builtin _) => trivial
  | .native (.host _) => exact fun k hMem => hCovers.closures (hKnows k hMem)
  | .closure _ => exact hCovers.closures hKnows

/-- and ask for what it can ask for. -/
theorem permits (hCovers : y.Covers x) {operation : Operation}
    (hPermits : x.Permits host captured operation) :
    y.Permits host captured operation where
  frames f hMem := hCovers.frames f (hPermits.frames f hMem)
  values v hMem p hProcedure := hCovers.knows (hPermits.values v hMem p hProcedure)

/-- After any operation a client still has what it had. -/
theorem conclude (x : Client) (outcome : Outcome Handout) : (x.conclude outcome).Covers x := by
  cases outcome with
  | ok handout machine =>
    constructor
    · intro f hMem
      exact List.mem_append_right _ hMem
    · intro k hHas
      obtain ⟨v, hMem, hProcedure⟩ := hHas
      exact ⟨v, List.mem_append_right _ hMem, hProcedure⟩
  | error interrupt machine => exact ⟨fun _ => id, id⟩

theorem after (host : Host) (x : Client) (operation : Operation) :
    (x.after host operation).Covers x :=
  conclude x (operation.perform host x.machine)

/-- Whatever becomes of a client, it keeps what it had. -/
theorem of_leads (hLeads : Leads host captured x y) : y.Covers x := by
  induction hLeads with
  | refl => exact .refl x
  | tail _ hStep ih =>
    obtain ⟨operation, -, rfl⟩ := hStep
    exact (after host _ operation).trans ih

end Covers

/-- A client that is on a store and has every closure that is bound in it. -/
structure Accounts (captured : List Closure) (x : Client) (s : Store) : Prop where
  store : x.machine.store = s
  held : ∀ p, s.Holds p → x.Knows captured p

/-- What a run keeps to as long as a client has all that comes up in it. -/
def acquaintance (captured : List Closure) (x : Client) : Discipline where
  Stores := x.Accounts captured
  Frames _ f := f ∈ x.frames
  Procedures _ := x.Knows captured
  Forms _ := True

/-- What a client has to be given to have all that another one is given. -/
def Handed (captured : List Closure) (x : Client) (handout handout' : Handout) : Prop :=
  handout = handout' ∧ (∀ f ∈ handout.frames, f ∈ x.frames) ∧
    ∀ v ∈ handout.values, ∀ p ∈ v.procedures, x.Knows captured p

section

variable {x : Client}

theorem handFrame_handed {f g : FrameId} (hFrames : f = g ∧ f ∈ x.frames) :
    x.Handed captured (Operation.handFrame f) (Operation.handFrame g) :=
  ⟨congrArg Operation.handFrame hFrames.1,
    fun _ hMem => List.mem_singleton.1 hMem ▸ hFrames.2, nofun⟩

theorem handValue_handed {v w : Value} (hValues : v = w ∧ ∀ p ∈ v.procedures, x.Knows captured p) :
    x.Handed captured (Operation.handValue v) (Operation.handValue w) :=
  ⟨congrArg Operation.handValue hValues.1, nofun, fun _ hMem =>
    List.mem_singleton.1 hMem ▸ hValues.2⟩

theorem handNothing_handed (done done' : Unit) :
    x.Handed captured (Operation.handNothing done) (Operation.handNothing done') :=
  ⟨rfl, nofun, nofun⟩

end

end Client

namespace Coupling

open Client

/-- A run next to itself, and a client of a host without procedures that keeps up with it. -/
def shadowing (captured : List Closure) : Coupling where
  World := Client
  Extends := Leads [] captured
  Machines x m n := m = n ∧ (acquaintance captured x).Stores m.store
  Frames x f g := f = g ∧ f ∈ x.frames
  Values x v v' := v = v' ∧ ∀ p ∈ v.procedures, x.Knows captured p
  Interrupts := Eq
  Forms _ := True
  ahead := False

theorem shadowing_inLockstep (captured : List Closure) : (shadowing captured).InLockstep :=
  ⟨id, Iff.rfl⟩

variable {host : Host} {captured : List Closure} {x : Client}

/-- It is enough to look at one run. -/
theorem shadowing_together {α : Type} {R : Client → α → α → Prop} {action : Action α}
    (hAction : ∀ m, x.Accounts captured m.store →
      (shadowing captured).Outcomes x R (action m) (action m)) :
    (shadowing captured).Together x R action action := by
  intro m n hMachines
  obtain ⟨rfl, hAccounts⟩ := hMachines
  exact hAction m hAccounts

/-- An action that leaves the store as it is. -/
theorem shadowing_stay {α : Type} {R : Client → α → α → Prop} {m n : Machine} {a : α}
    (hAccounts : x.Accounts captured m.store) (hStore : n.store = m.store) (hResult : R x a a) :
    (shadowing captured).Outcomes x R (.ok a n) (.ok a n) :=
  .done x .refl ⟨rfl, hStore ▸ hAccounts⟩ hResult

/-- An action that the client does as well, by an operation. Of what is then bound it has been given
what was not bound before. -/
theorem shadowing_follow {α : Type} {R : Client → α → α → Prop} {m n : Machine} {a : α}
    (hAccounts : x.Accounts captured m.store) {operation : Client.Operation}
    (hPermits : x.Permits [] captured operation)
    (hStore : (x.after [] operation).machine.store = n.store)
    (hHeld : ∀ p, n.store.Holds p → x.Knows captured p ∨ m.store.Holds p)
    (hResult : R (x.after [] operation) a a) :
    (shadowing captured).Outcomes x R (.ok a n) (.ok a n) := by
  refine .done (x.after [] operation) (.single ⟨operation, hPermits, rfl⟩) ⟨rfl, hStore, ?_⟩ hResult
  intro p hBound
  exact (Covers.after [] x operation).knows ((hHeld p hBound).elim id (hAccounts.held p))

theorem shadowing_record (event : Event) :
    (shadowing captured).Together x (shadowing captured).Nothing (record event) (record event) := by
  apply shadowing_together
  intro m hAccounts
  exact shadowing_stay hAccounts rfl trivial

/-- What is found is bound, and so the client has it already. -/
theorem shadowing_lookup (f : FrameId) (name : String) :
    (shadowing captured).Together x (shadowing captured).Values (lookup f name)
      (lookup f name) := by
  apply shadowing_together
  intro m hAccounts
  rw [lookup_apply]
  cases hFound : m.store.lookup? f name with
  | none => exact .stopped x .refl ⟨rfl, hAccounts⟩ rfl
  | some v =>
    have hKnown : ∀ p ∈ v.procedures, x.Knows captured p :=
      fun p hMem => hAccounts.held p (Store.holds_of_lookup? hFound hMem)
    exact shadowing_stay hAccounts rfl ⟨rfl, hKnown⟩

theorem shadowing_define {f : FrameId} (hFrame : f ∈ x.frames) {v : Value}
    (hValue : ∀ p ∈ v.procedures, x.Knows captured p) (name : String) :
    (shadowing captured).Together x (shadowing captured).Nothing (define f name v)
      (define f name v) := by
  apply shadowing_together
  intro m hAccounts
  have hPermits : x.Permits [] captured (.define f name v) :=
    ⟨fun _ hMem => List.mem_singleton.1 hMem ▸ hFrame, fun _ hMem =>
      List.mem_singleton.1 hMem ▸ hValue⟩
  have hStore : (x.after [] (.define f name v)).machine.store = m.store.define f name v := by
    rw [← hAccounts.store]
    rfl
  refine shadowing_follow hAccounts hPermits hStore ?_ trivial
  intro p hBound
  exact (Store.holds_define hBound).imp_left (hValue p)

/-- An assignment fails on both sides and changes nothing, or both change the same binding. -/
theorem shadowing_assign {f : FrameId} (hFrame : f ∈ x.frames) {v : Value}
    (hValue : ∀ p ∈ v.procedures, x.Knows captured p) (name : String) :
    (shadowing captured).Together x (shadowing captured).Nothing (assign f name v)
      (assign f name v) := by
  apply shadowing_together
  intro m hAccounts
  rw [assign_apply]
  cases hOwner : m.store.owner? f name with
  | none => exact .stopped x .refl ⟨rfl, hAccounts⟩ rfl
  -- The frame that owns the name need not be one that the client has: it assigns from its own.
  | some owner =>
    have hPermits : x.Permits [] captured (.assign f name v) :=
      ⟨fun _ hMem => List.mem_singleton.1 hMem ▸ hFrame, fun _ hMem =>
        List.mem_singleton.1 hMem ▸ hValue⟩
    have hStore : (x.after [] (.assign f name v)).machine.store = m.store.define owner name v := by
      rw [← hAccounts.store] at hOwner ⊢
      show (x.conclude ((Client.Operation.handNothing <$> assign f name v : Action Handout)
        x.machine)).machine.store = _
      rw [map_eq_pure_bind]
      simp only [Bind.bind, EStateM.bind, assign_apply, hOwner]
      rfl
    refine shadowing_follow hAccounts hPermits hStore ?_ trivial
    intro p hBound
    exact (Store.holds_define hBound).imp_left (hValue p)

/-- A frame that the client can ask for as well. -/
theorem shadowing_addFrame {entries : List (String × Value)}
    (hEntries : ∀ entry ∈ entries, ∀ p ∈ entry.2.procedures, x.Knows captured p)
    {parent : Option FrameId} (operation : Client.Operation)
    (hPermits : x.Permits [] captured operation)
    (hOpens : ∃ events, operation.perform [] x.machine =
      .ok (Client.Operation.handFrame x.machine.store.frames.size)
      ⟨(x.machine.store.addFrame (.ofList entries) parent).2, events⟩) :
    (shadowing captured).Together x (shadowing captured).Frames (addFrame entries parent)
      (addFrame entries parent) := by
  apply shadowing_together
  intro m hAccounts
  obtain ⟨events, hPerform⟩ := hOpens
  have hAfter : x.after [] operation =
    ⟨⟨(x.machine.store.addFrame (.ofList entries) parent).2, events⟩,
      x.machine.store.frames.size :: x.frames, x.values⟩ :=
    congrArg x.conclude hPerform
  refine shadowing_follow hAccounts hPermits ?_ ?_ ⟨rfl, ?_⟩
  · rw [hAfter, hAccounts.store]
    rfl
  · intro p hBound
    rcases Store.holds_addFrame hBound with ⟨entry, hEntry, hMem⟩ | hBefore
    · exact .inl (hEntries entry hEntry p hMem)
    · exact .inr hBefore
  · rw [hAfter, hAccounts.store]
    exact List.mem_cons_self

/-- A frame below one that the client has, with values that it can use. -/
theorem shadowing_child {f : FrameId} (hFrame : f ∈ x.frames) {entries : List (String × Value)}
    (hEntries : ∀ entry ∈ entries, ∀ p ∈ entry.2.procedures, x.Knows captured p) :
    (shadowing captured).Together x (shadowing captured).Frames (addFrame entries (some f))
      (addFrame entries (some f)) := by
  have hPermits : x.Permits [] captured (.child f entries) := by
    constructor
    · intro g hMem
      exact List.mem_singleton.1 hMem ▸ hFrame
    · intro v hMem
      obtain ⟨entry, hEntry, rfl⟩ := List.mem_map.1 hMem
      exact hEntries entry hEntry
  exact shadowing_addFrame hEntries (.child f entries) hPermits ⟨_, rfl⟩

/-- The client asks for the frame that the closure was made in, and for the new one below it. -/
theorem shadowing_call {k : Closure} (hHas : x.Has k) {entries : List (String × Value)}
    (hEntries : ∀ entry ∈ entries, ∀ p ∈ entry.2.procedures, x.Knows captured p) :
    (shadowing captured).Together x (shadowing captured).Frames (addFrame entries (some k.frame))
      (addFrame entries (some k.frame)) := by
  intro m n hMachines
  have hPermits : x.Permits [] captured (.origin k) := by
    refine ⟨nofun, ?_⟩
    intro v hMem p hProcedure
    cases List.mem_singleton.1 hMem
    exact List.mem_singleton.1 hProcedure ▸ hHas
  let y := x.after [] (.origin k)
  have hCovers : y.Covers x := Covers.after [] x (.origin k)
  have hFrame : k.frame ∈ y.frames := List.mem_cons_self
  have hKnown : ∀ entry ∈ entries, ∀ p ∈ entry.2.procedures, y.Knows captured p :=
    fun entry hEntry p hMem => hCovers.knows (hEntries entry hEntry p hMem)
  obtain ⟨rfl, hAccounts⟩ := hMachines
  have hOutcomes := shadowing_child hFrame hKnown (m := m) (n := m)
    ⟨rfl, hAccounts.store, fun p hBound => hCovers.knows (hAccounts.held p hBound)⟩
  cases hOutcomes with
  | done later hLater hMachines hResult =>
    exact .done later (.head ⟨.origin k, hPermits, rfl⟩ hLater) hMachines hResult

/-- The client has the form evaluated that makes the closure. -/
theorem shadowing_addClosure {f : FrameId} (hFrame : f ∈ x.frames) {names : List String}
    (hNames : DistinctSymbols names) (body : Expression) :
    (shadowing captured).Together x (shadowing captured).Values (addClosure names body f)
      (addClosure names body f) := by
  apply shadowing_together
  intro m hAccounts
  -- No operation makes a closure as such, but a form does, and it needs no level below its own.
  let form := Keyword.lambda.form [.list (names.map .text), body]
  have hPermits : x.Permits [] captured (.evaluate (some 0) form f) :=
    ⟨fun _ hMem => List.mem_singleton.1 hMem ▸ hFrame, nofun⟩
  have hMakes : evalWithin ([] : Host) 0 form f = addClosure names body f := by
    show (step ([] : Host) (eval ([] : Host) 0) form f).adaptExcept _ = _
    rw [step_lambda hNames]
    rfl
  have hAfter : x.after [] (.evaluate (some 0) form f) =
      x.conclude ((Client.Operation.handValue <$> addClosure names body f : Action Handout)
      x.machine) :=
    congrArg (fun action : Action Value => x.conclude
      ((Client.Operation.handValue <$> action) x.machine)) hMakes
  rw [addClosure_apply]
  refine shadowing_follow hAccounts hPermits ?_ (fun p hBound => .inr hBound) ⟨rfl, ?_⟩
  · rw [hAfter, ← hAccounts.store]
    rfl
  · rw [hAfter, ← hAccounts.store]
    intro p hMem
    cases List.mem_singleton.1 hMem
    exact ⟨_, List.mem_cons_self, List.mem_singleton_self _⟩

/-- The evaluator does nothing that the client could not do, if the procedures that it calls do
not. -/
theorem shadowing_lawful {caller : Caller}
    (hBuiltin : ∀ procedure arguments frame, caller (.builtin procedure) arguments frame =
      ofExcept (procedure.operation.call arguments))
    (hHost : ∀ x name arguments frame, x.Knows captured (.native (.host name)) →
      (∀ v ∈ arguments, ∀ p ∈ v.procedures, x.Knows captured p) → frame ∈ x.frames →
      (shadowing captured).Together x (shadowing captured).Values
      (caller (.host name) arguments frame) (caller (.host name) arguments frame)) :
    (shadowing captured).Lawful caller where
  error _ := rfl
  inForm _ := congrArg _
  refl _ := .refl
  trans := .trans
  frames_mono hLater hFrames := ⟨hFrames.1, (Covers.of_leads hLater).frames _ hFrames.2⟩
  values_mono hLater hValues :=
    ⟨hValues.1, fun p hMem => (Covers.of_leads hLater).knows (hValues.2 p hMem)⟩
  form_head _ _ := trivial
  form_rest _ _ _ := trivial
  form_body _ := trivial
  quoted x e := ⟨rfl, (acquaintance captured x).values_ofExpression .empty e⟩
  kind hValues := congrArg Value.kind hValues.1.symm
  truth hValues := congrArg Value.isTrue hValues.1.symm
  closure := by
    intro x k v' hValues
    obtain ⟨rfl, -⟩ := hValues
    exact ⟨k, rfl, rfl, rfl, trivial⟩
  native := by
    intro x native v' hValues
    obtain ⟨rfl, -⟩ := hValues
    rfl
  record := by
    rintro _ event _ (⟨name, rfl, -⟩ | ⟨name, rfl, -⟩ | _) <;> exact shadowing_record _
  lookup := by
    intro x f g name hFrames _ _
    cases hFrames.1
    exact shadowing_lookup f name
  define := by
    intro x f g v v' name hFrames hValues
    obtain ⟨rfl, hFrame⟩ := hFrames
    obtain ⟨rfl, hValue⟩ := hValues
    exact shadowing_define hFrame hValue name
  assign := by
    intro x f g v v' name e hFrames hValues _
    obtain ⟨rfl, hFrame⟩ := hFrames
    obtain ⟨rfl, hValue⟩ := hValues
    exact shadowing_assign hFrame hValue name
  child := by
    intro x f g entries entries' hFrames hEntries
    obtain ⟨rfl, hFrame⟩ := hFrames
    obtain ⟨rfl, hEach⟩ :=
      Discipline.entries_eq (d := acquaintance captured x) (s := .empty) hEntries
    exact shadowing_child hFrame hEach
  call := by
    intro x k k' entries entries' hClosures hEntries
    obtain ⟨hSame, hKnown⟩ := hClosures
    cases hSame
    obtain ⟨rfl, hEach⟩ :=
      Discipline.entries_eq (d := acquaintance captured x) (s := .empty) hEntries
    exact shadowing_call (hKnown _ (List.mem_singleton_self _)) hEach
  addClosure := by
    intro x f g names body hFrames _ hNodup hSymbols
    obtain ⟨rfl, hFrame⟩ := hFrames
    exact shadowing_addClosure hFrame ⟨hNodup, hSymbols⟩ body
  callNative := by
    intro x f g native arguments arguments' hFrames hValues hArguments
    obtain ⟨rfl, hFrame⟩ := hFrames
    cases native with
    | builtin procedure =>
      rw [hBuiltin, hBuiltin]
      have hStay : Leads [] captured x x := .refl
      exact together_callBuiltin hStay (fun _ => rfl) alike_same_iff.symm procedure hArguments
    | host name =>
      obtain ⟨rfl, hEach⟩ :=
        Discipline.arguments_eq (d := acquaintance captured x) (s := .empty) hArguments
      exact hHost x name arguments f (hValues.2 _ (List.mem_singleton_self _)) hEach hFrame

/-- The client asks for a global frame of its own. -/
theorem shadowing_makeGlobalFrame {caller : Caller} (h : (shadowing captured).Lawful caller) :
    (shadowing captured).Together x (shadowing captured).Frames Interpreter.makeGlobalFrame
      Interpreter.makeGlobalFrame := by
  have hEntries : ∀ entry ∈ Interpreter.constants ++ Interpreter.builtins, ∀ p ∈ entry.2.procedures,
      x.Knows captured p := by
    intro entry hMem p hProcedure
    rcases Interpreter.global_cases hMem with ⟨x, hConstant⟩ | ⟨procedure, hBuiltin⟩
    · rw [hConstant] at hProcedure
      cases hProcedure
    · rw [hBuiltin] at hProcedure
      cases List.mem_singleton.1 hProcedure
      trivial
  refine h.bind (shadowing_addFrame hEntries .globalFrame ⟨nofun, nofun⟩ ⟨_, rfl⟩)
    fun _ hFrames => ?_
  exact h.bind (shadowing_record _) fun hLater _ => h.pure (h.frames_mono hLater hFrames)

theorem shadowing_renew {caller : Caller} (h : (shadowing captured).Lawful caller)
    (options : Interpreter.Options) (event : Event) :
    (shadowing captured).Together x
      (fun later i j => (shadowing captured).Frames later i.globalFrame j.globalFrame)
      (renew options event) (renew options event) := by
  refine h.bind (shadowing_record event) fun _ _ => ?_
  refine h.bind (shadowing_makeGlobalFrame h) fun _ hFrames => ?_
  exact h.pure hFrames

/-- The client has no procedures to install, but it can bind them. -/
theorem shadowing_install {caller : Caller} (h : (shadowing captured).Lawful caller) {f : FrameId}
    (hFrame : f ∈ x.frames) {procedures : Host}
    (hProcedures : ∀ procedure ∈ procedures, x.Knows captured (.native (.host procedure.name))) :
    (shadowing captured).Together x (shadowing captured).Nothing (Interpreter.install procedures f)
      (Interpreter.install procedures f) := by
  induction procedures generalizing x with
  | nil => exact h.pure trivial
  | cons procedure rest ih =>
    obtain ⟨hFirst, hRest⟩ := List.forall_mem_cons.1 hProcedures
    have hBound : (shadowing captured).Together x (shadowing captured).Nothing
        (do record (.registering procedure.name)
            define f procedure.name (.procedure (.native (.host procedure.name))))
        (do record (.registering procedure.name)
            define f procedure.name (.procedure (.native (.host procedure.name)))) := by
      refine h.bind (shadowing_record _) fun hLater _ => ?_
      have hCovers := Covers.of_leads hLater
      apply shadowing_define (hCovers.frames f hFrame)
      intro p hMem
      exact List.mem_singleton.1 hMem ▸ hCovers.knows hFirst
    refine h.bind hBound fun hLater _ => ?_
    have hCovers := Covers.of_leads hLater
    exact ih (hCovers.frames f hFrame) fun other hMem => hCovers.knows (hRest other hMem)

/-- One case for each operation: the client can do whatever it does. -/
theorem shadowing_performBy {caller : Caller} (h : (shadowing captured).Lawful caller)
    {operation : Client.Operation} (hPermits : x.Permits host captured operation) :
    (shadowing captured).Together x (Handed captured) (operation.performBy caller host)
      (operation.performBy caller host) := by
  have hLockstep := shadowing_inLockstep captured
  have hFrames := hPermits.frames
  have hValues := hPermits.values
  cases operation with
  | root =>
    have hNothing : ∀ entry ∈ ([] : List (String × Value)),
        ∀ p ∈ entry.2.procedures, x.Knows captured p :=
      nofun
    exact h.map (shadowing_addFrame hNothing .root ⟨nofun, nofun⟩ ⟨_, rfl⟩)
      handFrame_handed
  | child f entries =>
    have hEntries : ∀ entry ∈ entries, ∀ p ∈ entry.2.procedures, x.Knows captured p :=
      fun entry hMem => hValues entry.2 (List.mem_map_of_mem hMem)
    exact h.map (shadowing_child (hFrames f List.mem_cons_self) hEntries) handFrame_handed
  | globalFrame => exact h.map (shadowing_makeGlobalFrame h) handFrame_handed
  | create options => exact h.map (shadowing_renew h options _) handFrame_handed
  | reset i => exact h.map (shadowing_renew h i.options _) handFrame_handed
  | install f =>
    have hProcedures : ∀ procedure ∈ host, x.Knows captured (.native (.host procedure.name)) :=
      fun procedure hMem => hValues _ (List.mem_map_of_mem hMem) _ (List.mem_singleton_self _)
    exact h.map (shadowing_install h (hFrames f List.mem_cons_self) hProcedures) fun _ =>
      handNothing_handed _ _
  | define f name v =>
    exact h.map (shadowing_define (hFrames f List.mem_cons_self)
      (hValues v List.mem_cons_self) name)
      fun _ => handNothing_handed _ _
  | assign f name v =>
    exact h.map (shadowing_assign (hFrames f List.mem_cons_self)
      (hValues v List.mem_cons_self) name)
      fun _ => handNothing_handed _ _
  | lookup f name => exact h.map (shadowing_lookup f name) handValue_handed
  | list f =>
    apply shadowing_together
    intro m hAccounts
    apply shadowing_stay hAccounts rfl
    refine ⟨rfl, nofun, ?_⟩
    intro v hMem p hProcedure
    obtain ⟨entry, hEntry, rfl⟩ := List.mem_map.1 hMem
    exact hAccounts.held p (Store.holds_of_mem_visible hEntry hProcedure)
  | parent f =>
    apply shadowing_together
    intro m hAccounts
    have hPermits : x.Permits [] captured (.parent f) := ⟨hFrames, nofun⟩
    refine shadowing_follow hAccounts hPermits hAccounts.store (fun p hBound => .inr hBound)
      ⟨rfl, ?_, nofun⟩
    intro g hMem
    have hParent : g ∈ (m.store.parent? f).toList := hMem
    rw [← hAccounts.store] at hParent
    exact List.mem_append_left _ hParent
  | origin k =>
    apply shadowing_together
    intro m hAccounts
    have hPermits : x.Permits [] captured (.origin k) := ⟨nofun, hValues⟩
    refine shadowing_follow hAccounts hPermits hAccounts.store (fun p hBound => .inr hBound) ?_
    exact handFrame_handed ⟨rfl, List.mem_cons_self⟩
  | evaluate limit e f =>
    exact h.map (h.evaluateBy hLockstep limit (e := e) trivial ⟨rfl, hFrames f List.mem_cons_self⟩)
      handValue_handed
  | apply v arguments f =>
    have hArguments : List.Forall₂ ((shadowing captured).Values x) arguments arguments :=
      List.forall₂_same.2 fun u hMem => ⟨rfl, hValues u (List.mem_cons_of_mem _ hMem)⟩
    exact h.map (h.applyWith (h.evalUnlimited hLockstep) ⟨rfl, hValues v List.mem_cons_self⟩
      hArguments ⟨rfl, hFrames f List.mem_cons_self⟩) handValue_handed
  | source i text =>
    exact h.map (h.evalSourceBy hLockstep (fun _ => trivial) rfl
      ⟨rfl, hFrames _ List.mem_cons_self⟩ text)
      handValue_handed

end Coupling

end EmbeddedLisp
