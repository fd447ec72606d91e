import EmbeddedLisp.Proofs.Evaluation.Scoping

/-! Closures are numbered in the order that they are made in, so a number stands for one closure and
for no other. Next to a run there is the list of the closures that have been made. It only gets
longer, and each closure that comes up is in the place of its number, whatever else is in flight at
the time. -/
namespace EmbeddedLisp

open EmbeddedLisp.Action Evaluation

/-- The procedures whose closures are in the places of their numbers. A procedure of the host counts
for the closures that it may answer with. -/
inductive Numbered (captured made : List Closure) : Procedure → Prop where
  | builtin (procedure : Builtin) : Numbered captured made (.native (.builtin procedure))
  | host (hCaptured : ∀ k ∈ captured, made[k.id]? = some k) (name : String) :
      Numbered captured made (.native (.host name))
  | closure {k : Closure} (hMade : made[k.id]? = some k) : Numbered captured made (.closure k)

namespace Numbered

variable {captured made later : List Closure} {p : Procedure} {k l : Closure}

theorem getElem? (hNumbered : Numbered captured made (.closure k)) : made[k.id]? = some k := by
  cases hNumbered with
  | closure hMade => exact hMade

/-- Native procedures have no number of their own. -/
theorem native (hCaptured : ∀ k ∈ captured, Numbered captured made (.closure k)) (native : Native) :
    Numbered captured made (.native native) := by
  cases native with
  | builtin procedure => exact .builtin procedure
  | host name => exact .host (fun k hMem => (hCaptured k hMem).getElem?) name

/-- A closure keeps its place when others are made. -/
theorem mono (hLater : made <+: later) (hNumbered : Numbered captured made p) :
    Numbered captured later p := by
  have hPlace {k : Closure} (hMade : made[k.id]? = some k) : later[k.id]? = some k := by
    obtain ⟨more, rfl⟩ := hLater
    rw [List.getElem?_append_left (List.getElem?_eq_some_iff.1 hMade).1, hMade]
  cases hNumbered with
  | builtin procedure => exact .builtin procedure
  | host hCaptured name => exact .host (fun k hMem => hPlace (hCaptured k hMem)) name
  | closure hMade => exact .closure (hPlace hMade)

/-- A closure that has been made has a number below that of the next one. -/
theorem id_lt (hNumbered : Numbered captured made (.closure k)) : k.id < made.length :=
  (List.getElem?_eq_some_iff.1 hNumbered.getElem?).1

/-- One number, one closure. -/
theorem eq_of_id_eq (hLeft : Numbered captured made (.closure k))
    (hRight : Numbered captured made (.closure l)) (hSame : k.id = l.id) : k = l := by
  have hPlace := hLeft.getElem?
  rw [hSame, hRight.getElem?] at hPlace
  exact (Option.some.inj hPlace).symm

end Numbered

/-- What a run keeps to as long as these closures have been made and no other. -/
def tally (captured made : List Closure) : Discipline where
  Stores s := s.closures = made.length ∧ ∀ p, s.Holds p → Numbered captured made p
  Frames _ _ := True
  Procedures _ := Numbered captured made
  Forms _ := True

section

variable {captured made later : List Closure} {s : Store}

/-- Values are as good after more closures have been made. -/
theorem tally_values_mono (hLater : made <+: later) {v : Value}
    (hValue : (tally captured made).Values s v) :
    (tally captured later).Values s v :=
  fun p hMem => (hValue p hMem).mono hLater

theorem tally_define (hStores : (tally captured made).Stores s) {v : Value}
    (hValue : (tally captured made).Values s v) (f : FrameId) (name : String) :
    (tally captured made).Stores (s.define f name v) :=
  ⟨hStores.1, fun p hHeld => (Store.holds_define hHeld).elim (hValue p) (hStores.2 p)⟩

/-- Definitions bind what has come up before, one after another. -/
theorem tally_defineAll {entries : List (String × Value)} (hStores : (tally captured made).Stores s)
    (hEntries : (tally captured made).Entries s entries) (f : FrameId) :
    (tally captured made).Stores (s.defineAll f entries) := by
  induction entries generalizing s with
  | nil => exact hStores
  | cons entry rest ih =>
    obtain ⟨hFirst, hRest⟩ := List.forall_mem_cons.1 hEntries
    exact ih (tally_define hStores hFirst f entry.1) hRest

theorem tally_addFrame {entries : List (String × Value)} (hStores : (tally captured made).Stores s)
    (hEntries : (tally captured made).Entries s entries) (parent : Option FrameId) :
    (tally captured made).Stores (s.addFrame (.ofList entries) parent).2 := by
  refine ⟨hStores.1, ?_⟩
  intro p hHeld
  rcases Store.holds_addFrame hHeld with ⟨entry, hEntry, hMem⟩ | hBefore
  · exact hEntries entry hEntry p hMem
  · exact hStores.2 p hBefore

/-- The next closure comes to the end of the list, which is the place of its number. -/
theorem tally_addClosure (hStores : (tally captured made).Stores s) (names : List String)
    (body : Expression) (f : FrameId) :
    (tally captured (made ++ [⟨s.closures, names, body, f⟩])).Stores { s with closures :=
      s.closures + 1 } ∧
      Numbered captured (made ++ [⟨s.closures, names, body, f⟩])
      (.closure ⟨s.closures, names, body, f⟩) := by
  obtain ⟨hCount, hHeld⟩ := hStores
  constructor
  · constructor
    · rw [List.length_append, List.length_singleton, ← hCount]
    · intro p hBound
      exact (hHeld p hBound).mono (List.prefix_append _ _)
  · apply Numbered.closure
    rw [hCount, List.getElem?_concat_length]

end

namespace Coupling

/-- The run next to itself, and the closures that have been made in it. -/
def numbering (captured : List Closure) : Coupling where
  World := List Closure
  Extends made later := made <+: later
  Machines made m n := m = n ∧ (tally captured made).Stores m.store
  Frames _ := Eq
  Values made v v' := v = v' ∧ ∀ p ∈ v.procedures, Numbered captured made p
  Interrupts := Eq
  Forms _ := True
  ahead := False

/-- A run is never ahead of itself. -/
theorem numbering_inLockstep (captured : List Closure) : (numbering captured).InLockstep :=
  ⟨id, Iff.rfl⟩

variable {captured made : List Closure} {host : Host}

/-- It is enough to look at one run. -/
theorem numbering_together {α : Type} {R : List Closure → α → α → Prop} {action : Action α}
    (hAction : ∀ m, (tally captured made).Stores m.store →
      (numbering captured).Outcomes made R (action m) (action m)) :
    (numbering captured).Together made R action action := by
  intro m n hMachines
  obtain ⟨rfl, hStores⟩ := hMachines
  exact hAction m hStores

theorem numbering_record (event : Event) :
    (numbering captured).Together made (numbering captured).Nothing (record event)
      (record event) := by
  apply numbering_together
  intro m hStores
  exact .done made (List.prefix_refl made) ⟨rfl, hStores⟩ trivial

theorem numbering_lookup (f : FrameId) (name : String) :
    (numbering captured).Together made (numbering captured).Values (lookup f name)
      (lookup f name) := by
  apply numbering_together
  intro m hStores
  rw [lookup_apply]
  cases hFound : m.store.lookup? f name with
  | none => exact .stopped made (List.prefix_refl made) ⟨rfl, hStores⟩ rfl
  | some v =>
    exact .done made (List.prefix_refl made) ⟨rfl, hStores⟩
      ⟨rfl, fun p hMem => hStores.2 p (Store.holds_of_lookup? hFound hMem)⟩

theorem numbering_define {v : Value} (hValue : ∀ p ∈ v.procedures, Numbered captured made p)
    (f : FrameId) (name : String) :
    (numbering captured).Together made (numbering captured).Nothing (define f name v)
      (define f name v) := by
  apply numbering_together
  intro m hStores
  exact .done made (List.prefix_refl made) ⟨rfl, tally_define hStores hValue f name⟩ trivial

theorem numbering_assign {v : Value} (hValue : ∀ p ∈ v.procedures, Numbered captured made p)
    (f : FrameId) (name : String) :
    (numbering captured).Together made (numbering captured).Nothing (assign f name v)
      (assign f name v) := by
  apply numbering_together
  intro m hStores
  rw [assign_apply]
  cases m.store.owner? f name with
  | none => exact .stopped made (List.prefix_refl made) ⟨rfl, hStores⟩ rfl
  | some owner => exact numbering_define hValue owner name ⟨rfl, hStores⟩

theorem numbering_addFrame {entries : List (String × Value)}
    (hEntries : ∀ entry ∈ entries, ∀ p ∈ entry.2.procedures, Numbered captured made p)
    (parent : Option FrameId) :
    (numbering captured).Together made (numbering captured).Frames (addFrame entries parent)
      (addFrame entries parent) := by
  apply numbering_together
  intro m hStores
  exact .done made (List.prefix_refl made) ⟨rfl, tally_addFrame hStores hEntries parent⟩ rfl

/-- The one action that makes the list longer. -/
theorem numbering_addClosure (names : List String) (body : Expression) (f : FrameId) :
    (numbering captured).Together made (numbering captured).Values (addClosure names body f)
      (addClosure names body f) := by
  apply numbering_together
  intro m hStores
  obtain ⟨hAdded, hNumbered⟩ := tally_addClosure hStores names body f
  rw [addClosure_apply]
  refine .done _ (List.prefix_append made _) ⟨rfl, hAdded⟩ ⟨rfl, ?_⟩
  intro p hMem
  rwa [List.mem_singleton.1 hMem]

/-- A procedure of the host answers with closures from its arguments or with those that it was made
with, all of which have their places. -/
theorem numbering_callHost (hHost : host.AnswersFrom captured) {name : String}
    (hNative : Numbered captured made (.native (.host name))) {arguments : List Value}
    (hArguments : ∀ v ∈ arguments, ∀ p ∈ v.procedures, Numbered captured made p) (f : FrameId) :
    (numbering captured).Together made (numbering captured).Values
      (callNative host (.host name) arguments f) (callNative host (.host name) arguments f) := by
  apply numbering_together
  intro m hStores
  simp only [callNative]
  cases hFind : host.procedure? name with
  | none => exact .stopped made (List.prefix_refl made) ⟨rfl, hStores⟩ rfl
  | some procedure =>
    simp only [get_bind]
    simp only [Bind.bind, EStateM.bind]
    cases hAnswer : procedure.run arguments (m.store.bindings f).binds with
    | error fault => exact .stopped made (List.prefix_refl made) ⟨rfl, hStores⟩ rfl
    | ok answer =>
      have hCaptured : ∀ k ∈ captured, Numbered captured made (.closure k) := by
        cases hNative with
        | host hCaptured => exact fun k hMem => .closure (hCaptured k hMem)
      obtain ⟨hValue, hDefinitions⟩ := hHost.answer (d := tally captured made) (s := m.store)
        (Numbered.native hCaptured) hCaptured (List.mem_of_find?_eq_some hFind) hArguments hAnswer
      simp only [Action.ofExcept, pure, EStateM.pure, forM_define_apply]
      exact .done made (List.prefix_refl made) ⟨rfl, tally_defineAll hStores hDefinitions f⟩
        ⟨rfl, hValue⟩

/-- So the closures that come up in an evaluation are in their places all along. -/
theorem numbering_lawful (hHost : host.AnswersFrom captured) :
    (numbering captured).Lawful host where
  error _ := rfl
  inForm _ := congrArg _
  refl := List.prefix_refl
  trans := List.IsPrefix.trans
  frames_mono _ := id
  values_mono hLater hValues := ⟨hValues.1, fun p hMem => (hValues.2 p hMem).mono hLater⟩
  form_head _ _ := trivial
  form_rest _ _ _ := trivial
  form_body _ := trivial
  quoted made e := ⟨rfl, (tally captured made).values_ofExpression .empty e⟩
  kind hValues := congrArg Value.kind hValues.1.symm
  truth hValues := congrArg Value.isTrue hValues.1.symm
  closure := by
    intro made k v' hValues
    obtain ⟨rfl, -⟩ := hValues
    exact ⟨k, rfl, rfl, rfl, trivial⟩
  native := by
    intro made native v' hValues
    obtain ⟨rfl, -⟩ := hValues
    rfl
  record := by
    rintro _ event _ (⟨name, rfl, -⟩ | ⟨name, rfl, -⟩ | _) <;> exact numbering_record _
  lookup := by
    intro made f g name hFrames _ _
    cases hFrames
    exact numbering_lookup f name
  define := by
    intro made f g v v' name hFrames hValues
    cases hFrames
    obtain ⟨rfl, hValue⟩ := hValues
    exact numbering_define hValue f name
  assign := by
    intro made f g v v' name e hFrames hValues _
    cases hFrames
    obtain ⟨rfl, hValue⟩ := hValues
    exact numbering_assign hValue f name
  child := by
    intro made f g entries entries' hFrames hEntries
    cases hFrames
    obtain ⟨rfl, hEach⟩ := Discipline.entries_eq (d := tally captured made) (s := .empty) hEntries
    exact numbering_addFrame hEach (some f)
  call := by
    intro made k k' entries entries' hClosures hEntries
    cases hClosures.1
    obtain ⟨rfl, hEach⟩ := Discipline.entries_eq (d := tally captured made) (s := .empty) hEntries
    exact numbering_addFrame hEach (some k.frame)
  addClosure := by
    intro made f g names body hFrames _ _ _
    cases hFrames
    exact numbering_addClosure names body f
  callNative := by
    intro made f g native arguments arguments' hFrames hValues hArguments
    cases hFrames
    cases native with
    | builtin procedure =>
      exact together_callBuiltin (List.prefix_refl made) (fun _ => rfl)
        alike_same_iff.symm procedure
        hArguments
    | host name =>
      obtain ⟨rfl, hEach⟩ :=
        Discipline.arguments_eq (d := tally captured made) (s := .empty) hArguments
      exact numbering_callHost hHost (hValues.2 _ (List.mem_singleton_self _)) hEach f

end Coupling

end EmbeddedLisp
