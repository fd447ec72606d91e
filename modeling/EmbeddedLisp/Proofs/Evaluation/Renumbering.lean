import EmbeddedLisp.Proofs.Evaluation.Discipline
import EmbeddedLisp.Proofs.Scope.Renumbering

/-! Two runs that are the same up to the numbers of closures. The language has no use for these
numbers, so the runs stay the same, as long as the procedures of the host do not tell them apart
either. -/
namespace EmbeddedLisp

open EmbeddedLisp.Action Evaluation

variable {Ids : Nat → Nat → Prop}

/-- Whether the procedures of a host do the same with values that are the same up to the numbers of
closures. -/
def Host.Respects (host : Host) (Ids : Nat → Nat → Prop) : Prop :=
  ∀ procedure ∈ host, ∀ vs vs' isBound, AlikeEach (Renumbered Ids) vs vs' →
    Answers (fun answer answer' => Alike (Renumbered Ids) answer.value answer'.value ∧
        List.Forall₂ (fun x y => x.1 = y.1 ∧ Alike (Renumbered Ids) x.2 y.2) answer.definitions
        answer'.definitions)
      (procedure.run vs isBound) (procedure.run vs' isBound)

/-- Procedures that depend on their arguments alone and that do not tell procedures apart. -/
theorem Host.respects_of_parametric {host : Host}
    (hHost : ∀ procedure ∈ host, ∃ name operation,
      procedure = .ofOperation name operation ∧ operation.Parametric) : host.Respects Ids := by
  intro procedure hMem vs vs' isBound hArguments
  obtain ⟨name, operation, rfl, hParametric⟩ := hHost procedure hMem
  have hAnswers := hParametric (Renumbered Ids) vs vs' hArguments
  simp only [HostProcedure.ofOperation]
  generalize operation.call vs = left at hAnswers ⊢
  generalize operation.call vs' = right at hAnswers ⊢
  cases hAnswers with
  | error fault => exact .error fault
  | ok hValues => exact .ok ⟨hValues, .nil⟩

/-- Definitions of related values keep the frames the same, by induction on them. -/
theorem SameFrames.defineAll {s t : Store} (h : SameFrames Ids s t) (f : FrameId)
    {entries entries' : List (String × Value)}
    (hEntries : List.Forall₂ (fun x y => x.1 = y.1 ∧ Alike (Renumbered Ids) x.2 y.2)
      entries entries') :
    SameFrames Ids (s.defineAll f entries) (t.defineAll f entries') := by
  induction hEntries generalizing s t with
  | nil => exact h
  | @cons x y _ _ hEntry _ ih =>
    simp only [Store.defineAll, List.foldl_cons]
    rw [← hEntry.1]
    exact ih (h.define f x.1 hEntry.2)

theorem Store.closures_defineAll (s : Store) (f : FrameId) (entries : List (String × Value)) :
    (s.defineAll f entries).closures = s.closures := by
  induction entries generalizing s with
  | nil => rfl
  | cons entry rest ih => exact ih _

namespace Coupling

/-- Two runs in the same frames, with numbers of closures that stand for each other, also those that
are still to be given. -/
def renumbering (Ids : Nat → Nat → Prop) : Coupling where
  World := Unit
  Extends _ _ := True
  Machines _ m n := SameFrames Ids m.store n.store ∧
    ∀ i, Ids (m.store.closures + i) (n.store.closures + i)
  Frames _ f g := f = g
  Values _ := Alike (Renumbered Ids)
  Interrupts := Eq
  Forms _ := True
  ahead := False

/-- Both runs need the same number of levels. -/
theorem renumbering_inLockstep (Ids : Nat → Nat → Prop) : (renumbering Ids).InLockstep :=
  ⟨id, Iff.rfl⟩

theorem renumbering_record (event event' : Event) :
    (renumbering Ids).Together () (renumbering Ids).Nothing (record event) (record event') :=
  fun _ _ hMachines => .done () trivial hMachines trivial

theorem renumbering_define (f : FrameId) (name : String) {v v' : Value}
    (hValues : Alike (Renumbered Ids) v v') :
    (renumbering Ids).Together () (renumbering Ids).Nothing (define f name v) (define f name v') :=
  fun _ _ hMachines => .done () trivial ⟨hMachines.1.define f name hValues, hMachines.2⟩ trivial

/-- The same frame of both stores has related values for a name. -/
theorem renumbering_lookup (f : FrameId) (name : String) :
    (renumbering Ids).Together () (renumbering Ids).Values (lookup f name) (lookup f name) := by
  intro m n hMachines
  have hValues := hMachines.1.lookup? f name
  rw [lookup_apply, lookup_apply]
  generalize m.store.lookup? f name = left at hValues ⊢
  generalize n.store.lookup? f name = right at hValues ⊢
  cases hValues with
  | none => exact .stopped () trivial hMachines rfl
  | some hValues => exact .done () trivial hMachines hValues

theorem renumbering_assign (f : FrameId) (name : String) {v v' : Value}
    (hValues : Alike (Renumbered Ids) v v') :
    (renumbering Ids).Together () (renumbering Ids).Nothing (assign f name v)
      (assign f name v') := by
  intro m n hMachines
  rw [assign_apply, assign_apply, hMachines.1.owner? f name]
  cases m.store.owner? f name with
  | none => exact .stopped () trivial hMachines rfl
  | some owner => exact renumbering_define owner name hValues hMachines

/-- A new frame is under the same number on both sides, since there are as many frames. -/
theorem renumbering_addFrame {entries entries' : List (String × Value)}
    (hEntries : (renumbering Ids).Entries () entries entries') (parent : Option FrameId) :
    (renumbering Ids).Together () (renumbering Ids).Frames (addFrame entries parent)
      (addFrame entries' parent) := by
  intro m n hMachines
  exact .done () trivial ⟨hMachines.1.addFrame hEntries parent, hMachines.2⟩ hMachines.1.size.symm

/-- The next closures of both sides are related to each other. -/
theorem renumbering_addClosure (names : List String) (body : Expression) (f : FrameId) :
    (renumbering Ids).Together () (renumbering Ids).Values (addClosure names body f)
      (addClosure names body f) := by
  intro m n hMachines
  rw [addClosure_apply, addClosure_apply]
  refine .done () trivial ⟨hMachines.1.withClosures _ _, fun i => ?_⟩
    (.procedure (.closure names body f ?_))
  · rw [Nat.add_assoc, Nat.add_assoc]
    exact hMachines.2 (1 + i)
  · exact hMachines.2 0

/-- A procedure of the host answers related values for related arguments, as it is supposed to. -/
theorem renumbering_callHost {host : Host} (hHost : host.Respects Ids) (name : String)
    {arguments arguments' : List Value}
    (hArguments : AlikeEach (Renumbered Ids) arguments arguments') (f : FrameId) :
    (renumbering Ids).Together () (renumbering Ids).Values
      (callNative host (.host name) arguments f) (callNative host (.host name) arguments' f) := by
  intro m n hMachines
  simp only [callNative]
  cases hFind : host.procedure? name with
  | none => exact .stopped () trivial hMachines rfl
  | some procedure =>
    have hBinds : (n.store.bindings f).binds = (m.store.bindings f).binds :=
      funext (hMachines.1.bindings f).binds_eq
    have hAnswers :=
      hHost procedure (List.mem_of_find?_eq_some hFind) _ _ (m.store.bindings f).binds hArguments
    simp only [get_bind, hBinds]
    simp only [Bind.bind, EStateM.bind]
    generalize procedure.run arguments _ = left at hAnswers ⊢
    generalize procedure.run arguments' _ = right at hAnswers ⊢
    cases hAnswers with
    | error fault => exact .stopped () trivial hMachines rfl
    | ok hAnswer =>
      obtain ⟨hValue, hDefinitions⟩ := hAnswer
      simp only [Action.ofExcept, Pure.pure, EStateM.pure, forM_define_apply]
      refine .done () trivial ⟨hMachines.1.defineAll f hDefinitions, ?_⟩ hValue
      simpa only [Store.closures_defineAll] using hMachines.2

/-- So no evaluation depends on the numbers of closures, up to these numbers in its result. -/
theorem renumbering_lawful {host : Host} (hHost : host.Respects Ids) :
    (renumbering Ids).Lawful host where
  error _ := rfl
  inForm _ := congrArg _
  refl _ := trivial
  trans _ _ := trivial
  frames_mono _ := id
  values_mono _ := id
  form_head _ _ := trivial
  form_rest _ _ _ := trivial
  form_body _ := trivial
  quoted _ := alike_ofExpression
  kind := Alike.kind_eq
  truth := Alike.isTrue_eq
  closure := by
    intro w k v' hValues
    cases hValues with
    | procedure hProcedures =>
      cases hProcedures with
      | closure => exact ⟨_, rfl, rfl, rfl, trivial⟩
  native := by
    intro w native v' hValues
    cases hValues with
    | procedure hProcedures =>
      cases hProcedures with
      | native => rfl
  record _ := renumbering_record _ _
  lookup := by
    rintro w f _ name rfl - -
    exact renumbering_lookup f name
  define := by
    rintro w f _ v v' name rfl hValues
    exact renumbering_define f name hValues
  assign := by
    rintro w f _ v v' name e rfl hValues -
    exact renumbering_assign f name hValues
  child := by
    rintro w f _ entries entries' rfl hEntries
    exact renumbering_addFrame hEntries (some f)
  call := by
    intro w k k' entries entries' hClosures hEntries
    cases hClosures with
    | procedure hProcedures =>
      cases hProcedures with
      | closure => exact renumbering_addFrame hEntries _
  addClosure := by
    rintro w f _ names body rfl - - -
    exact renumbering_addClosure names body f
  callNative := by
    rintro w f _ native arguments arguments' rfl - hArguments
    cases native with
    | builtin procedure =>
      exact together_callBuiltin trivial (fun _ => rfl) Iff.rfl procedure hArguments
    | host name => exact renumbering_callHost hHost name (alikeEach_iff.2 hArguments) f

end Coupling

end EmbeddedLisp
