import EmbeddedLisp.Proofs.Evaluation.Lockstep
import EmbeddedLisp.Proofs.Procedure.Parametricity

/-! Two runs that do the same. They evaluate the same forms in the same frames and come to the same
values, and only their stores may differ, in what is not looked at. If the stores may not differ
either, this is one run that keeps an invariant.

What such runs have in common is given by the operations of a store alone, so nothing that follows
from it has to look at the evaluator again. -/
namespace EmbeddedLisp

open EmbeddedLisp.Action Evaluation Form

/-- What two runs that do the same work on. -/
structure Diagonal where
  Stores : Store → Store → Prop
  /-- The frames that forms are evaluated in. -/
  Frames : FrameId → Prop
  /-- The procedures that come up in values. -/
  Procedures : Procedure → Prop
  /-- The forms that are evaluated. -/
  Forms : Expression → Prop

namespace Diagonal

variable {d : Diagonal} {host : Host}

/-- Values all of whose procedures can come up. -/
def Values (d : Diagonal) (v : Value) : Prop := ∀ p ∈ v.procedures, d.Procedures p

/-- The operations of a store have to keep to what the runs work on. -/
structure Lawful (d : Diagonal) : Prop where
  form_head : ∀ {head rest}, d.Forms (.list (head :: rest)) →
    head.symbol?.bind Keyword.ofName? = none → d.Forms head
  form_rest : ∀ {head rest}, d.Forms (.list (head :: rest)) → ∀ e ∈ rest, d.Forms e
  form_body : ∀ {body}, (∀ e ∈ body, d.Forms e) → d.Forms (joinBody body)
  native : ∀ {native}, d.Procedures (.native native) → ∃ procedure, native = .builtin procedure
  closure : ∀ {k}, d.Procedures (.closure k) → d.Forms k.body ∧ d.Frames k.frame
  makes : ∀ {f body}, d.Frames f → d.Forms body → ∀ id names,
    d.Procedures (.closure ⟨id, names, body, f⟩)
  size : ∀ {s t}, d.Stores s t → t.frames.size = s.frames.size
  closures : ∀ {s t}, d.Stores s t → t.closures = s.closures
  lookup : ∀ {s t f name}, d.Stores s t → d.Frames f → d.Forms (.text name) →
    t.lookup? f name = s.lookup? f name ∧ ∀ v, s.lookup? f name = some v → d.Values v
  owner : ∀ {s t f name e}, d.Stores s t → d.Frames f →
    d.Forms (.list [.text Keyword.assign.name, .text name, e]) →
    t.owner? f name = s.owner? f name ∧ ∀ g, s.owner? f name = some g → d.Frames g
  define : ∀ {s t f v}, d.Stores s t → d.Frames f → d.Values v → ∀ name,
    d.Stores (s.define f name v) (t.define f name v)
  addFrame : ∀ {s t f entries}, d.Stores s t → d.Frames f → (∀ entry ∈ entries, d.Values entry.2) →
    d.Frames s.frames.size ∧
      d.Stores (s.addFrame (.ofList entries) (some f)).2 (t.addFrame (.ofList entries) (some f)).2
  addClosure : ∀ {s t}, d.Stores s t → ∀ made,
    d.Stores { s with closures := made } { t with closures := made }

/-- Two runs that have the same frames and the same values in hand. -/
def coupling (d : Diagonal) : Coupling where
  World := Unit
  Extends _ _ := True
  Machines _ m n := m.events = n.events ∧ d.Stores m.store n.store
  Frames _ f g := f = g ∧ d.Frames f
  Values _ v v' := v = v' ∧ d.Values v
  Interrupts := Eq
  Forms := d.Forms
  ahead := False

theorem inLockstep (d : Diagonal) : d.coupling.InLockstep := ⟨id, Iff.rfl⟩

/-- Related entries are the same, and their values are good. -/
theorem entries_eq {entries entries' : List (String × Value)}
    (hEntries : d.coupling.Entries () entries entries') :
    entries = entries' ∧ ∀ entry ∈ entries, d.Values entry.2 := by
  induction hEntries with
  | nil => exact ⟨rfl, nofun⟩
  | cons hEntry _ ih =>
    obtain ⟨hName, hValue, hGood⟩ := hEntry
    refine ⟨by rw [Prod.ext hName hValue, ih.1], fun entry hMem => ?_⟩
    rcases List.mem_cons.1 hMem with rfl | hMem
    · exact hGood
    · exact ih.2 entry hMem

theorem together_record (event : Event) :
    d.coupling.Together () d.coupling.Nothing (record event) (record event) := by
  rintro m n ⟨hEvents, hStores⟩
  exact .done () trivial ⟨congrArg (event :: ·) hEvents, hStores⟩ trivial

namespace Lawful

variable (h : d.Lawful)

include h

theorem together_define {f : FrameId} {v : Value} (hFrame : d.Frames f) (name : String)
    (hValue : d.Values v) :
    d.coupling.Together () d.coupling.Nothing (Action.define f name v)
      (Action.define f name v) := by
  rintro m n ⟨hEvents, hStores⟩
  exact .done () trivial ⟨hEvents, h.define hStores hFrame hValue name⟩ trivial

theorem together_lookup {f : FrameId} {name : String} (hFrame : d.Frames f)
    (hForm : d.Forms (.text name)) :
    d.coupling.Together () d.coupling.Values (Action.lookup f name) (Action.lookup f name) := by
  rintro m n ⟨hEvents, hStores⟩
  obtain ⟨hSame, hGood⟩ := h.lookup hStores hFrame hForm
  rw [lookup_apply, lookup_apply, hSame]
  cases hFound : m.store.lookup? f name with
  | none => exact .stopped () trivial ⟨hEvents, hStores⟩ rfl
  | some v => exact .done () trivial ⟨hEvents, hStores⟩ ⟨rfl, hGood v hFound⟩

theorem together_assign {f : FrameId} {v : Value} {name : String} {e : Expression}
    (hFrame : d.Frames f) (hValue : d.Values v)
    (hForm : d.Forms (.list [.text Keyword.assign.name, .text name, e])) :
    d.coupling.Together () d.coupling.Nothing (Action.assign f name v)
      (Action.assign f name v) := by
  rintro m n ⟨hEvents, hStores⟩
  obtain ⟨hSame, hGood⟩ := h.owner hStores hFrame hForm
  rw [assign_apply, assign_apply, hSame]
  cases hFound : m.store.owner? f name with
  | none => exact .stopped () trivial ⟨hEvents, hStores⟩ rfl
  | some owner => exact h.together_define (hGood owner hFound) name hValue ⟨hEvents, hStores⟩

/-- A new frame is under the same number in both runs. -/
theorem together_addFrame {f : FrameId} {entries : List (String × Value)} (hFrame : d.Frames f)
    (hEntries : ∀ entry ∈ entries, d.Values entry.2) :
    d.coupling.Together () d.coupling.Frames (Action.addFrame entries (some f))
      (Action.addFrame entries (some f)) := by
  rintro m n ⟨hEvents, hStores⟩
  obtain ⟨hInner, hAdded⟩ := h.addFrame hStores hFrame hEntries
  exact .done () trivial ⟨hEvents, hAdded⟩ ⟨(h.size hStores).symm, hInner⟩

/-- A new closure has the same number in both runs, for they have made as many. -/
theorem together_addClosure {f : FrameId} {body : Expression} (hFrame : d.Frames f)
    (hForm : d.Forms body) (names : List String) :
    d.coupling.Together () d.coupling.Values (Action.addClosure names body f)
      (Action.addClosure names body f) := by
  rintro m n ⟨hEvents, hStores⟩
  rw [addClosure_apply, addClosure_apply, h.closures hStores]
  refine .done () trivial ⟨hEvents, h.addClosure hStores _⟩ ⟨rfl, fun p hMem => ?_⟩
  rw [List.mem_singleton.1 hMem]
  exact h.makes hFrame hForm _ names

/-- What is asked of the stores is enough for whole evaluations. -/
theorem coupling_lawful (host : Host) : d.coupling.Lawful host where
  error _ := rfl
  inForm _ := congrArg _
  refl _ := trivial
  trans _ _ := trivial
  frames_mono _ := id
  values_mono _ := id
  form_head := h.form_head
  form_rest := h.form_rest
  form_body := h.form_body
  quoted _ e := (alike_ofExpression e).same
  kind hValues := congrArg Value.kind hValues.1.symm
  truth hValues := congrArg Value.isTrue hValues.1.symm
  closure := by
    rintro _ k _ ⟨rfl, hGood⟩
    exact ⟨k, rfl, rfl, rfl, (h.closure (hGood _ (List.mem_singleton_self _))).1⟩
  native := by
    rintro _ native _ ⟨rfl, -⟩
    rfl
  record := by
    rintro _ event _ (⟨name, rfl, -⟩ | ⟨name, rfl, -⟩ | _) <;> exact together_record _
  lookup := by
    rintro _ f _ name ⟨rfl, hFrame⟩ hForm _
    exact h.together_lookup hFrame hForm
  define := by
    rintro _ f _ v _ name ⟨rfl, hFrame⟩ ⟨rfl, hValue⟩
    exact h.together_define hFrame name hValue
  assign := by
    rintro _ f _ v _ name e ⟨rfl, hFrame⟩ ⟨rfl, hValue⟩ hForm
    exact h.together_assign hFrame hValue hForm
  child := by
    rintro _ f _ entries _ ⟨rfl, hFrame⟩ hEntries
    obtain ⟨rfl, hEach⟩ := entries_eq hEntries
    exact h.together_addFrame hFrame hEach
  call := by
    rintro _ k k' entries _ ⟨hSame, hGood⟩ hEntries
    cases hSame
    obtain ⟨rfl, hEach⟩ := entries_eq hEntries
    exact h.together_addFrame (h.closure (hGood _ (List.mem_singleton_self _))).2 hEach
  addClosure := by
    rintro _ f _ names body ⟨rfl, hFrame⟩ hForm _ _
    exact h.together_addClosure hFrame hForm names
  callNative := by
    rintro _ f _ native arguments arguments' ⟨rfl, -⟩ ⟨-, hGood⟩ hArguments
    obtain ⟨procedure, rfl⟩ := h.native (hGood _ (List.mem_singleton_self _))
    exact Coupling.together_callBuiltin trivial (fun _ => rfl) alike_same_iff.symm
      procedure hArguments

/-- Both evaluations come to the same result, within a limit of depth or without one, and keep to
what the runs work on. -/
theorem evaluate (host : Host) (limit : Option Nat) {e : Expression} {f : FrameId} {m n : Machine}
    (hForm : d.Forms e) (hFrame : d.Frames f) (hEvents : m.events = n.events)
    (hStores : d.Stores m.store n.store) :
    Outcome.result (Interpreter.evaluate host limit e f n) =
        Outcome.result (Interpreter.evaluate host limit e f m) ∧
      d.Stores (Outcome.machine (Interpreter.evaluate host limit e f m)).store
        (Outcome.machine (Interpreter.evaluate host limit e f n)).store ∧
      ∀ v, Outcome.result (Interpreter.evaluate host limit e f m) = .ok v → d.Values v := by
  have hOutcomes := (h.coupling_lawful host).evaluate d.inLockstep limit (w := ()) hForm
    ⟨rfl, hFrame⟩ ⟨hEvents, hStores⟩
  generalize Interpreter.evaluate host limit e f m = left at hOutcomes ⊢
  generalize Interpreter.evaluate host limit e f n = right at hOutcomes ⊢
  cases hOutcomes with
  | done _ _ hMachines hValues =>
    obtain ⟨rfl, hGood⟩ := hValues
    refine ⟨rfl, hMachines.2, fun v hResult => ?_⟩
    cases hResult
    exact hGood
  | stopped _ _ hMachines hInterrupts =>
    cases hInterrupts
    exact ⟨rfl, hMachines.2, nofun⟩
  | outrun hAhead => exact hAhead.elim

end Lawful

end Diagonal

end EmbeddedLisp
