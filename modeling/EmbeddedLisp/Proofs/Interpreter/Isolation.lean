import EmbeddedLisp.Interpreter.Session
import EmbeddedLisp.Proofs.Evaluation.Lockstep
import EmbeddedLisp.Proofs.Procedure.Parametricity
import EmbeddedLisp.Proofs.Scope.Correspondence

/-! Interpreters on one machine are isolated. An interpreter reaches only frames of its own: those
it can come to from its global frame and from the closures in its values. So it replies to its
requests as it would alone on any machine, whatever the other interpreters are asked in between, and
after a reset as a new interpreter does.

A session of all interpreters is compared with one session for each of them alone. What an
interpreter reaches in the one mirrors what it reaches in the other, and the frames of any two are
apart. -/
namespace EmbeddedLisp

open EmbeddedLisp.Action Evaluation

namespace Coupling

/-- An interpreter alone and the same interpreter among others. In the second run it changes only
frames of its own and those made since the run began. -/
def isolation (base : Store) (own : FrameId → Prop) : Coupling where
  World := Link
  Extends w w' := ∀ f g, w f g → w' f g
  Machines w m n := Mirrors w m.store n.store ∧ Confined base own w n.store
  Frames w := w
  Values := Linked
  Interrupts := Eq
  Forms _ := True
  ahead := False

section

variable {base : Store} {own : FrameId → Prop} {w : Link} {f g : FrameId}

theorem isolation_record (event event' : Event) :
    (isolation base own).Together w (isolation base own).Nothing (record event) (record event') :=
  fun _ _ hMachines => .done w (fun _ _ => id) hMachines trivial

/-- Linked frames have linked values for a name, or none for it. -/
theorem isolation_lookup (hFrames : w f g) (name : String) :
    (isolation base own).Together w Linked (lookup f name) (lookup g name) := by
  intro m n hMachines
  have hValues := hMachines.1.lookup? hFrames name
  rw [lookup_apply, lookup_apply]
  generalize m.store.lookup? f name = left at hValues ⊢
  generalize n.store.lookup? g name = right at hValues ⊢
  cases hValues with
  | none => exact .stopped w (fun _ _ => id) hMachines rfl
  | some hValues => exact .done w (fun _ _ => id) hMachines hValues

theorem isolation_define (hFrames : w f g) (name : String) {v v' : Value}
    (hValues : Linked w v v') :
    (isolation base own).Together w (isolation base own).Nothing (define f name v)
      (define g name v') := by
  intro m n hMachines
  exact .done w (fun _ _ => id)
    ⟨hMachines.1.define hFrames name hValues, hMachines.2.define hFrames name v'⟩ trivial

theorem isolation_assign (hFrames : w f g) (name : String) {v v' : Value}
    (hValues : Linked w v v') :
    (isolation base own).Together w (isolation base own).Nothing (assign f name v)
      (assign g name v') := by
  intro m n hMachines
  have hOwners := hMachines.1.owner? hFrames name
  rw [assign_apply, assign_apply]
  generalize m.store.owner? f name = left at hOwners ⊢
  generalize n.store.owner? g name = right at hOwners ⊢
  cases hOwners with
  | none => exact .stopped w (fun _ _ => id) hMachines rfl
  | some hOwners => exact isolation_define hOwners name hValues hMachines

/-- The new frames are linked to each other from then on. -/
theorem isolation_addFrame {entries entries' : List (String × Value)}
    (hEntries : (isolation base own).Entries w entries entries') {p q : Option FrameId}
    (hParents : Option.Rel w p q) :
    (isolation base own).Together w (isolation base own).Frames (addFrame entries p)
      (addFrame entries' q) := by
  intro m n hMachines
  exact .done (w.extend m.store.frames.size n.store.frames.size) (fun _ _ => .inl)
    ⟨hMachines.1.addFrame (.ofList hEntries) hParents, hMachines.2.addFrame _ _ _⟩ (.inr ⟨rfl, rfl⟩)

/-- The closures of both sides are made in linked frames, and their numbers may differ. -/
theorem isolation_addClosure (hFrames : w f g) (names : List String) (body : Expression) :
    (isolation base own).Together w Linked (addClosure names body f) (addClosure names body g) := by
  intro m n hMachines
  exact .done w (fun _ _ => id) ⟨hMachines.1.withClosures _ _, hMachines.2.withClosures _⟩
    (.procedure (.closure _ _ names body hFrames))

end

/-- So an evaluation goes alike in linked frames, whatever else is on either machine. -/
theorem isolation_lawful (base : Store) (own : FrameId → Prop) (host : Host) :
    (isolation base own).Lawful host where
  error _ := rfl
  inForm _ := congrArg _
  refl _ _ _ := id
  trans hLater hMore f g hFrames := hMore f g (hLater f g hFrames)
  frames_mono hLater hFrames := hLater _ _ hFrames
  values_mono hLater hValues := hValues.mono hLater
  form_head _ _ := trivial
  form_rest _ _ _ := trivial
  form_body _ := trivial
  quoted _ := alike_ofExpression
  kind := Alike.kind_eq
  truth := Alike.isTrue_eq
  closure := by
    intro w k v' hValues
    cases hValues with
    | procedure hProcedures =>
      cases hProcedures with
      | closure => exact ⟨_, rfl, rfl, rfl, trivial⟩
  native := by
    intro w native v' hValues
    cases hValues with
    | procedure hProcedures =>
      cases hProcedures with
      | builtin => rfl
  record _ := isolation_record _ _
  lookup hFrames _ _ := isolation_lookup hFrames _
  define name hFrames hValues := isolation_define hFrames name hValues
  assign hFrames hValues _ := isolation_assign hFrames _ hValues
  child hFrames hEntries := isolation_addFrame hEntries (.some hFrames)
  call := by
    intro w k k' entries entries' hClosures hEntries
    cases hClosures with
    | procedure hProcedures =>
      cases hProcedures with
      | closure _ _ _ _ hFrames => exact isolation_addFrame hEntries (.some hFrames)
  addClosure hFrames _ _ _ := isolation_addClosure hFrames _ _
  callNative := by
    intro w f g native arguments arguments' _ hNative hArguments
    cases hNative with
    | procedure hProcedures =>
      cases hProcedures with
      | builtin procedure =>
        exact together_callBuiltin (fun _ _ => id) (fun _ => rfl) Iff.rfl procedure hArguments

/-- Interpreters of the same settings, with linked global frames. -/
def SameInterpreters (w : Link) (i i' : Interpreter) : Prop :=
  i.options = i'.options ∧ w i.globalFrame i'.globalFrame

section

variable {base : Store} {own : FrameId → Prop} {w : Link}

theorem isolation_makeGlobalFrame (host : Host) :
    (isolation base own).Together w (isolation base own).Frames Interpreter.makeGlobalFrame
      Interpreter.makeGlobalFrame := by
  have h := isolation_lawful base own host
  have hEntries : (isolation base own).Entries w (Interpreter.constants ++ Interpreter.builtins)
      (Interpreter.constants ++ Interpreter.builtins) := by
    refine List.forall₂_same.2 fun entry hMem => ⟨rfl, ?_⟩
    rcases Interpreter.global_cases hMem with ⟨x, hConstant⟩ | ⟨procedure, hBuiltin⟩
    · exact hConstant ▸ .float x
    · exact hBuiltin ▸ .procedure (.builtin procedure)
  refine h.bind (isolation_addFrame hEntries .none) fun hLater hFrames => ?_
  refine h.bind (isolation_record _ _) fun hMore _ => ?_
  exact h.pure (h.frames_mono hMore hFrames)

/-- A new global frame for an interpreter of some settings, after an event. -/
def renew (options : Interpreter.Options) (event : Event) : Action Interpreter := do
  record event
  return { options, globalFrame := ← Interpreter.makeGlobalFrame }

theorem isolation_renew (host : Host) (options : Interpreter.Options) (event event' : Event) :
    (isolation base own).Together w SameInterpreters (renew options event)
      (renew options event') := by
  have h := isolation_lawful base own host
  refine h.bind (isolation_record _ _) fun _ _ => ?_
  refine h.bind (isolation_makeGlobalFrame host) fun _ hFrames => ?_
  exact h.pure ⟨rfl, hFrames⟩

end

end Coupling

namespace Session

variable {ι : Type}

/-- A session of several interpreters, and for each of them a session of its own in which it is
alone. What each reaches in the one mirrors what it reaches in the other, and no frame is reached by
two. -/
structure Isolated (links : ι → Link) (alone : ι → Session ι) (s : Session ι) : Prop where
  mirrors : ∀ i, Mirrors (links i) (alone i).machine.store s.machine.store
  apart : ∀ {i j f f' g}, links i f g → links j f' g → i = j
  interpreters : ∀ i,
    Option.Rel (Coupling.SameInterpreters (links i)) ((alone i).interpreters i) (s.interpreters i)

theorem isolated_start (m m' : Machine) :
    Isolated (fun (_ : ι) _ _ => False) (fun _ => start m') (start m) where
  mirrors _ := .none _ _
  apart hFrames := hFrames.elim
  interpreters _ := .none

variable [DecidableEq ι] {links : ι → Link} {alone : ι → Session ι} {s : Session ι}

/-- What one interpreter does leaves the others as they are, as long as it keeps to frames of its
own and to new ones. -/
theorem Isolated.replace (hIsolated : Isolated links alone s) {name : ι} {own : FrameId → Prop}
    (hOwn : ∀ {g}, own g → ∃ f, links name f g) {w : Link} {mine after : Session ι}
    (hMirrors : Mirrors w mine.machine.store after.machine.store)
    (hConfined : Confined s.machine.store own w after.machine.store)
    (hInterpreter : Option.Rel (Coupling.SameInterpreters w) (mine.interpreters name)
      (after.interpreters name))
    (hOthers : ∀ other, other ≠ name → after.interpreters other = s.interpreters other) :
    Isolated (Function.update links name w) (Function.update alone name mine) after := by
  have hForeign {j : ι} (hOther : j ≠ name) {f g : FrameId} (hFrames : links j f g) :
      g < s.machine.store.frames.size ∧ ¬own g := by
    refine ⟨((hIsolated.mirrors j).size hFrames).2, fun hMine => ?_⟩
    obtain ⟨f', hFrames'⟩ := hOwn hMine
    exact hOther (hIsolated.apart hFrames hFrames')
  have hApart {j : ι} (hOther : j ≠ name) {f f' g : FrameId} (hFrames : links j f g) : ¬w f' g := by
    intro hMine
    obtain ⟨hSize, hNot⟩ := hForeign hOther hFrames
    exact (hConfined.within hMine).elim hNot (Nat.not_le_of_lt hSize)
  constructor
  · intro i
    by_cases hName : i = name
    · subst hName
      simpa using hMirrors
    · simp only [Function.update_of_ne hName]
      refine (hIsolated.mirrors i).of_kept fun hFrames => ?_
      obtain ⟨hSize, hNot⟩ := hForeign hName hFrames
      exact hConfined.kept hSize hNot
  · intro i j f f' g hFrames hFrames'
    by_cases hName : i = name
    · by_cases hName' : j = name
      · rw [hName, hName']
      · subst hName
        rw [Function.update_self] at hFrames
        rw [Function.update_of_ne hName'] at hFrames'
        exact absurd hFrames (hApart hName' hFrames')
    · by_cases hName' : j = name
      · subst hName'
        rw [Function.update_self] at hFrames'
        rw [Function.update_of_ne hName] at hFrames
        exact absurd hFrames' (hApart hName hFrames)
      · rw [Function.update_of_ne hName] at hFrames
        rw [Function.update_of_ne hName'] at hFrames'
        exact hIsolated.apart hFrames hFrames'
  · intro i
    by_cases hName : i = name
    · subst hName
      simpa using hInterpreter
    · simp only [Function.update_of_ne hName, hOthers i hName]
      exact hIsolated.interpreters i

/-- The same reply from one interpreter alone and among others, after which they are isolated
again. -/
def InStep (links : ι → Link) (alone : ι → Session ι) (name : ι) (left right : Reply × Session ι) :
    Prop :=
  left.1 = right.1 ∧
    ∃ w, Isolated (Function.update links name w) (Function.update alone name left.2) right.2

theorem Isolated.inStep_absent (hIsolated : Isolated links alone s) (name : ι) :
    InStep links alone name (.absent, alone name) (.absent, s) := by
  refine ⟨rfl, links name, ?_⟩
  simpa only [Function.update_eq_self] using hIsolated

/-- A global frame that is new in both sessions is linked with nothing else. What the interpreter
reached before does not matter, and so neither does the session that it is compared with. -/
theorem Isolated.inStep_renew (hIsolated : Isolated links alone s) (host : Host) (name : ι)
    (mine : Session ι) (options : Interpreter.Options) (event event' : Event) :
    InStep links alone name
      (mine.conclude (Coupling.renew options event mine.machine) fun i after =>
        (.ready, after.put name i))
      (s.conclude (Coupling.renew options event' s.machine) fun i after =>
        (.ready, after.put name i)) := by
  have hTogether : (Coupling.isolation s.machine.store fun _ => False).Together (fun _ _ => False)
      Coupling.SameInterpreters (Coupling.renew options event) (Coupling.renew options event') :=
    Coupling.isolation_renew host options event event'
  have hOutcomes := hTogether (m := mine.machine) ⟨.none _ s.machine.store, .start False.elim⟩
  obtain ⟨i, after, hRenewed⟩ : ∃ i after, Coupling.renew options event mine.machine =
      .ok i after :=
    ⟨_, _, rfl⟩
  rw [hRenewed] at hOutcomes ⊢
  generalize Coupling.renew options event' s.machine = right at hOutcomes ⊢
  cases hOutcomes with
  | done w _ hMachines hResult =>
    refine ⟨rfl, w, hIsolated.replace False.elim hMachines.1 hMachines.2 ?_ fun other hOther => ?_⟩
    · simpa [conclude, put] using hResult
    · simp [conclude, put, hOther]

theorem Isolated.inStep_source (hIsolated : Isolated links alone s) (host : Host) (name : ι)
    (text : String) : InStep links alone name ((alone name).respond host name (.source text))
      (s.respond host name (.source text)) := by
  have hInterpreters := hIsolated.interpreters name
  simp only [respond]
  generalize hMine : (alone name).interpreters name = mine at hInterpreters ⊢
  generalize hAmong : s.interpreters name = among at hInterpreters ⊢
  cases hInterpreters with
  | none => exact hIsolated.inStep_absent name
  | @some i i' hSame =>
    let own : FrameId → Prop := fun g => ∃ f, links name f g
    have hTogether : (Coupling.isolation s.machine.store own).Together (links name) Linked
        (i.evalSource host text) (i'.evalSource host text) :=
      (Coupling.isolation_lawful _ _ host).evalSource ⟨id, Iff.rfl⟩ (fun _ => trivial)
        hSame.1 hSame.2 text
    have hOutcomes := hTogether ⟨hIsolated.mirrors name, .start fun hFrames => ⟨_, hFrames⟩⟩
    have hIsolatedAfter {w : Link} {m n : Machine} (hLater : ∀ f g, links name f g → w f g)
        (hMachines : (Coupling.isolation s.machine.store own).Machines w m n) :
        Isolated (Function.update links name w)
          (Function.update alone name { alone name with machine := m })
          { s with machine := n } := by
      refine hIsolated.replace id hMachines.1 hMachines.2 ?_ fun _ _ => rfl
      simp only [hMine, hAmong]
      exact .some ⟨hSame.1, hLater _ _ hSame.2⟩
    dsimp only
    generalize i.evalSource host text (alone name).machine = left at hOutcomes ⊢
    generalize i'.evalSource host text s.machine = right at hOutcomes ⊢
    cases hOutcomes with
    | done w hLater hMachines hValues =>
      obtain ⟨hRender, hShape⟩ := hValues.render_shape
      exact ⟨by simp only [conclude, hRender, hShape], w, hIsolatedAfter hLater hMachines⟩
    | @stopped interrupt _ _ _ w hLater hMachines hInterrupts =>
      cases hInterrupts
      cases interrupt <;> exact ⟨rfl, w, hIsolatedAfter hLater hMachines⟩
    | outrun hAhead => exact hAhead.elim

/-- One case for each request. -/
theorem Isolated.inStep_respond (hIsolated : Isolated links alone s) (host : Host) (name : ι)
    (request : Request) : InStep links alone name ((alone name).respond host name request)
      (s.respond host name request) := by
  cases request with
  | create options => exact hIsolated.inStep_renew host name (alone name) options _ _
  | source text => exact hIsolated.inStep_source host name text
  | reset =>
    have hInterpreters := hIsolated.interpreters name
    simp only [respond]
    generalize (alone name).interpreters name = mine at hInterpreters ⊢
    generalize s.interpreters name = among at hInterpreters ⊢
    cases hInterpreters with
    | none => exact hIsolated.inStep_absent name
    | @some i i' hSame =>
      have hRenew := hIsolated.inStep_renew host name (alone name) i.options .resetting .resetting
      show InStep links alone name ((alone name).conclude (Coupling.renew i.options .resetting _) _)
        (s.conclude (Coupling.renew i'.options .resetting _) _)
      rwa [← hSame.1]

/-- The replies of one interpreter among others are those that it gives alone. -/
theorem Isolated.replies_filter (hIsolated : Isolated links alone s) (host : Host)
    (history : List (ι × Request)) (name : ι) :
    (s.replies host history).filter (·.1 = name) =
      (alone name).replies host (history.filter (·.1 = name)) := by
  induction history generalizing links alone s with
  | nil => rfl
  | cons entry rest ih =>
    obtain ⟨other, request⟩ := entry
    obtain ⟨hReply, w, hAfter⟩ := hIsolated.inStep_respond host other request
    have hRest := ih hAfter
    by_cases hSame : other = name
    · subst hSame
      rw [Function.update_self] at hRest
      simp [replies, hReply, hRest]
    · rw [Function.update_of_ne (Ne.symm hSame)] at hRest
      simp [replies, hSame, hRest]

/-- By induction on the requests, each interpreter is in step with one that is alone. -/
theorem Isolated.after (hIsolated : Isolated links alone s) (host : Host)
    (history : List (ι × Request)) :
    ∃ links' alone', Isolated links' alone' (s.after host history) := by
  induction history generalizing links alone s with
  | nil => exact ⟨links, alone, hIsolated⟩
  | cons entry rest ih =>
    obtain ⟨-, w, hAfter⟩ := hIsolated.inStep_respond host entry.1 entry.2
    exact ih hAfter

/-- Interpreters on one machine are isolated. Whatever is asked of them and in whatever order, one
of them replies to its own requests as it does when it is asked nothing else and there are no
others, on any machine. And after a reset, whatever came before, it replies to all that follows as a
new interpreter of the same settings does. -/
theorem interpreters_isolated (host : Host) (m m' : Machine) (history : List (ι × Request))
    (name : ι) :
    ((start m).replies host history).filter (·.1 = name) =
        (start m').replies host (history.filter (·.1 = name)) ∧
      ∀ interpreter, ((start m).after host history).interpreters name = some interpreter →
        ∀ later : List (ι × Request),
          (((start m).after host (history ++ [(name, .reset)])).replies host later).filter
            (·.1 = name) =
            ((start m').after host [(name, .create interpreter.options)]).replies host
              (later.filter (·.1 = name)) := by
  have hStart : Isolated (fun (_ : ι) _ _ => False) (fun _ => start m') (start m) :=
    isolated_start m m'
  refine ⟨hStart.replies_filter host history name, fun interpreter hInterpreter later => ?_⟩
  obtain ⟨links, alone, hIsolated⟩ := hStart.after host history
  obtain ⟨-, w, hAfter⟩ := hIsolated.inStep_renew host name (start m') interpreter.options
    (.creatingInterpreter interpreter.options) .resetting
  have hReset : (start m).after host (history ++ [(name, .reset)]) =
      ((((start m).after host history).respond host name .reset).2 : Session ι) := by
    simp [Session.after]
  have hReplies := hAfter.replies_filter host later name
  rw [Function.update_self] at hReplies
  rw [hReset, respond, hInterpreter]
  exact hReplies

end Session

end EmbeddedLisp
