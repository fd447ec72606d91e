import EmbeddedLisp.Proofs.Evaluation.Lockstep
import EmbeddedLisp.Proofs.Procedure.Parametricity
import EmbeddedLisp.Proofs.Scope.Growth

/-! One run that keeps to a discipline: to what is required of the store, of the frames that forms
are evaluated in, of the procedures that come up in values and of the forms. What is required of
frames and procedures may depend on the store that has been come to, as long as it stays true when
the store grows.

A closure is called in a new frame below the one that it was made in, which need not be a frame that
forms are evaluated in. So new frames are asked for twice, below a frame and below that of a
closure. -/
namespace EmbeddedLisp

open EmbeddedLisp.Action Evaluation Form

/-- What a run keeps to. -/
structure Discipline where
  Stores : Store → Prop
  /-- The frames that forms are evaluated in. -/
  Frames : Store → FrameId → Prop
  /-- The procedures that come up in values. -/
  Procedures : Store → Procedure → Prop
  /-- The forms that are evaluated. -/
  Forms : Expression → Prop

/-- The definitions of a host procedure, one after another. -/
def Store.defineAll (s : Store) (f : FrameId) (entries : List (String × Value)) : Store :=
  entries.foldl (fun s entry => s.define f entry.1 entry.2) s

/-- Definitions neither fail nor record anything. -/
theorem Action.forM_define_apply (f : FrameId) (entries : List (String × Value)) (m : Machine) :
    (entries.forM fun (name, v) => define f name v : Action Unit) m =
      .ok () { m with store := m.store.defineAll f entries } := by
  induction entries generalizing m with
  | nil => rfl
  | cons entry rest ih => exact ih _

namespace Discipline

/-- Values all of whose procedures may come up. -/
def Values (d : Discipline) (s : Store) (v : Value) : Prop := ∀ p ∈ v.procedures, d.Procedures s p

/-- Entries whose values may come up. -/
def Entries (d : Discipline) (s : Store) (entries : List (String × Value)) : Prop :=
  ∀ entry ∈ entries, d.Values s entry.2

/-- A frame with some entries, in which a form can be evaluated next. -/
def Opens (d : Discipline) (s : Store) (entries : List (String × Value)) (parent : FrameId) :
    Prop :=
  d.Stores (s.addFrame (.ofList entries) (some parent)).2 ∧
    d.Frames (s.addFrame (.ofList entries) (some parent)).2 s.frames.size

/-- The operations of a store, and the procedures of the host, have to keep to the discipline. -/
structure Lawful (d : Discipline) (host : Host) : Prop where
  form_head : ∀ {head rest}, d.Forms (.list (head :: rest)) →
    head.symbol?.bind Keyword.ofName? = none → d.Forms head
  form_rest : ∀ {head rest}, d.Forms (.list (head :: rest)) → ∀ e ∈ rest, d.Forms e
  form_body : ∀ {body}, (∀ e ∈ body, d.Forms e) → d.Forms (joinBody body)
  frames_mono : ∀ {s t f}, s.Grows t → d.Frames s f → d.Frames t f
  procedures_mono : ∀ {s t p}, s.Grows t → d.Procedures s p → d.Procedures t p
  lookup : ∀ {s f name v}, d.Stores s → d.Frames s f → d.Forms (.text name) →
    s.lookup? f name = some v → d.Values s v
  define : ∀ {s f v}, d.Stores s → d.Frames s f → d.Values s v →
    ∀ name, d.Stores (s.define f name v)
  assign : ∀ {s f g v name e}, d.Stores s → d.Frames s f → d.Values s v →
    d.Forms (.list [.text Keyword.assign.name, .text name, e]) → s.owner? f name = some g →
    d.Stores (s.define g name v)
  child : ∀ {s f entries}, d.Stores s → d.Frames s f → d.Entries s entries → d.Opens s entries f
  call : ∀ {s k entries}, d.Stores s → d.Procedures s (.closure k) → d.Entries s entries →
    d.Opens s entries k.frame
  body : ∀ {s k}, d.Procedures s (.closure k) → d.Forms k.body
  makes : ∀ {s f body names}, d.Stores s → d.Frames s f → d.Forms body → names.Nodup →
    (∀ name ∈ names, literalContents? name = none) →
    d.Stores { s with closures := s.closures + 1 } ∧
      d.Procedures { s with closures := s.closures + 1 } (.closure ⟨s.closures, names, body, f⟩)
  native : ∀ {s f name procedure arguments answer}, d.Stores s → d.Frames s f →
    d.Procedures s (.native (.host name)) → procedure ∈ host → (∀ v ∈ arguments, d.Values s v) →
    procedure.run arguments (s.bindings f).binds = .ok answer →
    d.Values s answer.value ∧ d.Entries s answer.definitions

/-- The run next to itself, in the store that it has come to. -/
def coupling (d : Discipline) : Coupling where
  World := Store
  Extends := Store.Grows
  Machines w m n := m = n ∧ m.store = w ∧ d.Stores m.store
  Frames w f g := f = g ∧ d.Frames w f
  Values w v v' := v = v' ∧ d.Values w v
  Interrupts := Eq
  Forms := d.Forms
  ahead := False

variable {d : Discipline} {host : Host} {s : Store} {f : FrameId}

/-- A run is never ahead of itself. -/
theorem inLockstep (d : Discipline) : d.coupling.InLockstep := ⟨id, Iff.rfl⟩

/-- There are no procedures in data, so it may always come up. -/
theorem values_ofExpression (d : Discipline) (s : Store) (e : Expression) :
    d.Values s (.ofExpression e) :=
  (alike_ofExpression e).same.2

theorem entries_eq {entries entries' : List (String × Value)}
    (hEntries : d.coupling.Entries s entries entries') :
    entries = entries' ∧ d.Entries s entries := by
  induction hEntries with
  | nil => exact ⟨rfl, nofun⟩
  | cons hEntry _ ih =>
    obtain ⟨hName, hSame, hValue⟩ := hEntry
    exact ⟨by rw [Prod.ext hName hSame, ih.1], List.forall_mem_cons.2 ⟨hValue, ih.2⟩⟩

/-- Arguments that are related are the same, and each of them may come up. -/
theorem arguments_eq {arguments arguments' : List Value}
    (hArguments : List.Forall₂ (d.coupling.Values s) arguments arguments') :
    arguments = arguments' ∧ ∀ v ∈ arguments, d.Values s v := by
  induction hArguments with
  | nil => exact ⟨rfl, nofun⟩
  | cons hValue _ ih => exact ⟨by rw [hValue.1, ih.1], List.forall_mem_cons.2 ⟨hValue.2, ih.2⟩⟩

theorem together_record (event : Event) :
    d.coupling.Together s d.coupling.Nothing (record event) (record event) := by
  rintro m _ ⟨rfl, rfl, hStores⟩
  exact .done m.store (.refl _) ⟨rfl, rfl, hStores⟩ trivial

theorem together_addFrame {entries : List (String × Value)} {parent : FrameId}
    (hOpens : d.Stores s → d.Opens s entries parent) :
    d.coupling.Together s d.coupling.Frames (Action.addFrame entries (some parent))
      (Action.addFrame entries (some parent)) := by
  rintro m _ ⟨rfl, rfl, hStores⟩
  obtain ⟨hAdded, hInner⟩ := hOpens hStores
  exact .done _ (.addFrame _ _ _) ⟨rfl, rfl, hAdded⟩ ⟨rfl, hInner⟩

namespace Lawful

variable (h : d.Lawful host)

include h

/-- What may come up in a store may come up in any that has grown from it. -/
theorem values_mono {t : Store} {v : Value} (hGrows : s.Grows t) (hValue : d.Values s v) :
    d.Values t v :=
  fun p hMem => h.procedures_mono hGrows (hValue p hMem)

theorem together_define {v : Value} (hFrame : d.Frames s f) (hValue : d.Values s v)
    (name : String) :
    d.coupling.Together s d.coupling.Nothing (Action.define f name v) (Action.define f name v) := by
  rintro m _ ⟨rfl, rfl, hStores⟩
  exact .done _ (.define _ _ _ _) ⟨rfl, rfl, h.define hStores hFrame hValue name⟩ trivial

theorem together_lookup {name : String} (hFrame : d.Frames s f) (hForm : d.Forms (.text name)) :
    d.coupling.Together s d.coupling.Values (Action.lookup f name) (Action.lookup f name) := by
  rintro m _ ⟨rfl, rfl, hStores⟩
  rw [lookup_apply]
  cases hFound : m.store.lookup? f name with
  | none => exact .stopped m.store (.refl _) ⟨rfl, rfl, hStores⟩ rfl
  | some v =>
    exact .done m.store (.refl _) ⟨rfl, rfl, hStores⟩ ⟨rfl, h.lookup hStores hFrame hForm hFound⟩

theorem together_assign {v : Value} {name : String} {e : Expression} (hFrame : d.Frames s f)
    (hValue : d.Values s v) (hForm : d.Forms (.list [.text Keyword.assign.name, .text name, e])) :
    d.coupling.Together s d.coupling.Nothing (Action.assign f name v) (Action.assign f name v) := by
  rintro m _ ⟨rfl, rfl, hStores⟩
  rw [assign_apply]
  cases hFound : m.store.owner? f name with
  | none => exact .stopped m.store (.refl _) ⟨rfl, rfl, hStores⟩ rfl
  | some owner =>
    exact .done _ (.define _ _ _ _) ⟨rfl, rfl, h.assign hStores hFrame hValue hForm hFound⟩ trivial

theorem together_addClosure {names : List String} {body : Expression} (hFrame : d.Frames s f)
    (hForm : d.Forms body) (hNodup : names.Nodup)
    (hSymbols : ∀ name ∈ names, literalContents? name = none) :
    d.coupling.Together s d.coupling.Values (Action.addClosure names body f)
      (Action.addClosure names body f) := by
  rintro m _ ⟨rfl, rfl, hStores⟩
  obtain ⟨hMade, hClosure⟩ := h.makes hStores hFrame hForm hNodup hSymbols
  rw [addClosure_apply]
  refine .done _ (.addClosure _ _) ⟨rfl, rfl, hMade⟩ ⟨rfl, fun p hMem => ?_⟩
  rwa [List.mem_singleton.1 hMem]

/-- Each definition finds the values that are still to be bound as good as they were. -/
theorem stores_defineAll {entries : List (String × Value)} (hStores : d.Stores s)
    (hFrame : d.Frames s f) (hEntries : d.Entries s entries) :
    s.Grows (s.defineAll f entries) ∧ d.Stores (s.defineAll f entries) := by
  induction entries generalizing s with
  | nil => exact ⟨.refl s, hStores⟩
  | cons entry rest ih =>
    obtain ⟨hFirst, hRest⟩ := List.forall_mem_cons.1 hEntries
    have hGrows : s.Grows (s.define f entry.1 entry.2) := .define s f entry.1 entry.2
    obtain ⟨hMore, hDefined⟩ :=
      ih (h.define hStores hFrame hFirst entry.1) (h.frames_mono hGrows hFrame)
      fun later hMem => h.values_mono hGrows (hRest later hMem)
    exact ⟨hGrows.trans hMore, hDefined⟩

/-- A procedure of the host keeps to the discipline if what it answers does. -/
theorem together_callHost {name : String} {arguments : List Value} (hFrame : d.Frames s f)
    (hNative : d.Procedures s (.native (.host name))) (hArguments : ∀ v ∈ arguments, d.Values s v) :
    d.coupling.Together s d.coupling.Values (callNative host (.host name) arguments f)
      (callNative host (.host name) arguments f) := by
  rintro m _ ⟨rfl, rfl, hStores⟩
  simp only [callNative]
  cases hFind : host.procedure? name with
  | none => exact .stopped m.store (.refl _) ⟨rfl, rfl, hStores⟩ rfl
  | some procedure =>
    simp only [get_bind]
    simp only [Bind.bind, EStateM.bind]
    cases hAnswer : procedure.run arguments (m.store.bindings f).binds with
    | error fault => exact .stopped m.store (.refl _) ⟨rfl, rfl, hStores⟩ rfl
    | ok answer =>
      obtain ⟨hValue, hDefinitions⟩ := h.native hStores hFrame hNative
        (List.mem_of_find?_eq_some hFind) hArguments hAnswer
      obtain ⟨hGrows, hDefined⟩ := h.stores_defineAll hStores hFrame hDefinitions
      simp only [Action.ofExcept, pure, EStateM.pure, forM_define_apply]
      exact .done _ hGrows ⟨rfl, rfl, hDefined⟩ ⟨rfl, h.values_mono hGrows hValue⟩

/-- So the evaluator keeps to a discipline that the operations of a store keep to. -/
theorem coupling_lawful : d.coupling.Lawful host where
  error _ := rfl
  inForm _ := congrArg _
  refl := Store.Grows.refl
  trans := Store.Grows.trans
  frames_mono hGrows hFrames := ⟨hFrames.1, h.frames_mono hGrows hFrames.2⟩
  values_mono hGrows hValues := ⟨hValues.1, h.values_mono hGrows hValues.2⟩
  form_head := h.form_head
  form_rest := h.form_rest
  form_body := h.form_body
  quoted s e := ⟨rfl, d.values_ofExpression s e⟩
  kind hValues := congrArg Value.kind hValues.1.symm
  truth hValues := congrArg Value.isTrue hValues.1.symm
  closure := by
    rintro s k _ ⟨rfl, hGood⟩
    exact ⟨k, rfl, rfl, rfl, h.body (hGood _ (List.mem_singleton_self _))⟩
  native := by
    rintro _ native _ ⟨rfl, -⟩
    rfl
  record := by
    rintro _ event _ (⟨name, rfl, -⟩ | ⟨name, rfl, -⟩ | _) <;> exact together_record _
  lookup := by
    rintro s f _ name ⟨rfl, hFrame⟩ hForm _
    exact h.together_lookup hFrame hForm
  define := by
    rintro s f _ v _ name ⟨rfl, hFrame⟩ ⟨rfl, hValue⟩
    exact h.together_define hFrame hValue name
  assign := by
    rintro s f _ v _ name e ⟨rfl, hFrame⟩ ⟨rfl, hValue⟩ hForm
    exact h.together_assign hFrame hValue hForm
  child := by
    rintro s f _ entries _ ⟨rfl, hFrame⟩ hEntries
    obtain ⟨rfl, hEach⟩ := entries_eq hEntries
    exact together_addFrame fun hStores => h.child hStores hFrame hEach
  call := by
    rintro s k k' entries _ ⟨hSame, hGood⟩ hEntries
    cases hSame
    obtain ⟨rfl, hEach⟩ := entries_eq hEntries
    exact together_addFrame fun hStores =>
      h.call hStores (hGood _ (List.mem_singleton_self _)) hEach
  addClosure := by
    rintro s f _ names body ⟨rfl, hFrame⟩ hForm hNodup hSymbols
    exact h.together_addClosure hFrame hForm hNodup hSymbols
  callNative := by
    rintro s f _ native arguments arguments' ⟨rfl, hFrame⟩ ⟨-, hGood⟩ hArguments
    cases native with
    | builtin procedure =>
      exact Coupling.together_callBuiltin (Store.Grows.refl s) (fun _ => rfl)
        alike_same_iff.symm procedure
        hArguments
    | host name =>
      obtain ⟨rfl, hEach⟩ := arguments_eq hArguments
      exact h.together_callHost hFrame (hGood _ (List.mem_singleton_self _)) hEach

end Lawful

/-- How an action that was started on a store keeps to the discipline, whether it has come to a
result or not. Of the result it may be known that it is good. -/
structure Keeps {α : Type} (d : Discipline) (s : Store) (Good : Store → α → Prop)
    (outcome : Outcome α) :
    Prop where
  grows : s.Grows (Outcome.machine outcome).store
  stores : d.Stores (Outcome.machine outcome).store
  good : ∀ x, Outcome.result outcome = .ok x → Good (Outcome.machine outcome).store x

theorem Keeps.map {α β : Type} {Good : Store → α → Prop} {Good' : Store → β → Prop}
    {action : Action α} {m : Machine} (hKeeps : d.Keeps s Good (action m)) {f : α → β}
    (hGood : ∀ {t x}, Good t x → Good' t (f x)) : d.Keeps s Good' ((f <$> action) m) := by
  obtain ⟨hGrows, hStores, hResult⟩ := hKeeps
  simp only [Functor.map, EStateM.map]
  generalize action m = outcome at hGrows hStores hResult
  cases outcome with
  | error => exact ⟨hGrows, hStores, nofun⟩
  | ok x after =>
    refine ⟨hGrows, hStores, fun y hSame => ?_⟩
    cases hSame
    exact hGood (hResult x rfl)

/-- What is said of the run next to itself, said of the one run. -/
theorem keeps_of_together {action : Action Value} {m : Machine}
    (hTogether : d.coupling.Together m.store d.coupling.Values action action)
    (hStores : d.Stores m.store) :
    d.Keeps m.store d.Values (action m) := by
  have hOutcomes := hTogether (m := m) (n := m) ⟨rfl, rfl, hStores⟩
  generalize action m = outcome at hOutcomes ⊢
  cases hOutcomes with
  | done _ hGrows hMachines hValues =>
    obtain ⟨-, rfl, hAfter⟩ := hMachines
    refine ⟨hGrows, hAfter, fun v hResult => ?_⟩
    cases hResult
    exact hValues.2
  | stopped _ hGrows hMachines =>
    obtain ⟨-, rfl, hAfter⟩ := hMachines
    exact ⟨hGrows, hAfter, nofun⟩
  | outrun hAhead => exact hAhead.elim

namespace Lawful

variable (h : d.Lawful host) {m : Machine}

include h

/-- The evaluation of a form, within a limit of depth or without one. -/
theorem evaluate (limit : Option Nat) {e : Expression} (hForm : d.Forms e)
    (hFrame : d.Frames m.store f) (hStores : d.Stores m.store) :
    d.Keeps m.store d.Values (Interpreter.evaluate host limit e f m) :=
  keeps_of_together (h.coupling_lawful.evaluate d.inLockstep limit hForm ⟨rfl, hFrame⟩) hStores

/-- The application of a procedure. A closure is called from wherever it is applied, so that the
frame matters to native procedures only. -/
theorem apply {v : Value} {arguments : List Value} (hValue : d.Values m.store v)
    (hArguments : ∀ u ∈ arguments, d.Values m.store u) (hFrame : d.Frames m.store f)
    (hStores : d.Stores m.store) :
    d.Keeps m.store d.Values (applyUnlimited host v arguments f m) := by
  refine keeps_of_together ?_ hStores
  have hEach : List.Forall₂ (d.coupling.Values m.store) arguments arguments :=
    List.forall₂_same.2 fun u hMem => ⟨rfl, hArguments u hMem⟩
  exact h.coupling_lawful.applyWith (h.coupling_lawful.evalUnlimited d.inLockstep)
    ⟨rfl, hValue⟩ hEach
    ⟨rfl, hFrame⟩

/-- A call of a closure, from any frame: it is the frame of the closure that counts. -/
theorem callClosure {k : Closure} {arguments : List Value}
    (hClosure : d.Procedures m.store (.closure k))
    (hArguments : ∀ u ∈ arguments, d.Values m.store u) (hStores : d.Stores m.store) :
    d.Keeps m.store d.Values (Evaluation.callClosure (evalUnlimited host) k arguments m) := by
  refine keeps_of_together ?_ hStores
  have hEach : List.Forall₂ (d.coupling.Values m.store) arguments arguments :=
    List.forall₂_same.2 fun u hMem => ⟨rfl, hArguments u hMem⟩
  refine h.coupling_lawful.callClosure (h.coupling_lawful.evalUnlimited d.inLockstep)
    ⟨rfl, ?_⟩ hEach
  intro p hMem
  rwa [List.mem_singleton.1 hMem]

/-- The evaluation of all forms of a text. -/
theorem evalSource (hForms : ∀ e, d.Forms e) (i : Interpreter)
    (hFrame : d.Frames m.store i.globalFrame) (hStores : d.Stores m.store) (text : String) :
    d.Keeps m.store d.Values (i.evalSource host text m) :=
  keeps_of_together
    (h.coupling_lawful.evalSource d.inLockstep hForms rfl ⟨rfl, hFrame⟩ text) hStores

end Lawful

end Discipline

end EmbeddedLisp
