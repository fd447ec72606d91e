import EmbeddedLisp.Proofs.Evaluation.Discipline
import EmbeddedLisp.Proofs.Evaluation.Footprint
import EmbeddedLisp.Proofs.Expression.Texts

/-! Definitions are local. A definition binds a name in the frame that it is evaluated in, and the
body of a procedure, like that of a form with bindings, is evaluated in a frame of its own. So where
nothing is assigned to, an evaluation changes no frame that was there before but the one that it is
started in, and a call of a closure none at all. -/
namespace EmbeddedLisp

/-- Whether no list in a form is an assignment. -/
def Expression.AssignsNothing (e : Expression) : Prop := Keyword.assign.name ∉ e.heads

namespace Expression.AssignsNothing

instance (e : Expression) : Decidable e.AssignsNothing := inferInstanceAs (Decidable (_ ∉ _))

theorem of_mem {elements : List Expression} (hNothing : AssignsNothing (.list elements))
    {e : Expression} (hMem : e ∈ elements) : e.AssignsNothing :=
  fun hHead => hNothing (mem_heads_of_mem hMem hHead)

/-- The word that joins the forms of a body is no assignment. -/
theorem body {body : List Expression} (hBody : ∀ e ∈ body, AssignsNothing e) :
    AssignsNothing (Form.joinBody body) := by
  unfold Form.joinBody
  split
  · exact hBody _ List.mem_cons_self
  · intro hHead
    rcases List.mem_cons.1 hHead with hWord | hHead
    · exact absurd hWord (by decide)
    · obtain ⟨e, hMem, hHead⟩ := mem_headsEach_iff.1 hHead
      exact hBody e hMem hHead

end Expression.AssignsNothing

open Expression (AssignsNothing)

namespace Evaluation

/-- The procedures that assign to nothing. -/
inductive NonassigningProcedures : Procedure → Prop where
  | builtin (procedure : Builtin) : NonassigningProcedures (.native (.builtin procedure))
  | closure {k : Closure} (hBody : AssignsNothing k.body) : NonassigningProcedures (.closure k)

/-- A run that assigns to nothing, and so writes only to the frames that it evaluates forms in: some
that were there at the start, and those made since. -/
def locality (base : Store) (own : FrameId → Prop) : Discipline where
  Stores s := base.KeptOutside own s ∧ ∀ p, s.Holds p → NonassigningProcedures p
  Frames _ := base.Region own
  Procedures _ := NonassigningProcedures
  Forms := AssignsNothing

theorem locality_opens {base s : Store} {own : FrameId → Prop} {entries : List (String × Value)}
    (hStores : (locality base own).Stores s) (hEntries : (locality base own).Entries s entries)
    (parent : FrameId) : (locality base own).Opens s entries parent := by
  obtain ⟨hKept, hHolds⟩ := hStores
  refine ⟨⟨hKept.addFrame _ _, fun p hHeld => ?_⟩, .inr hKept.size⟩
  rcases Store.holds_addFrame hHeld with ⟨entry, hEntry, hMem⟩ | hBefore
  · exact hEntries entry hEntry p hMem
  · exact hHolds p hBefore

/-- Without assignments an evaluation writes only to frames that are its own from the start, and to
those that are made on the way. -/
theorem locality_lawful (base : Store) (own : FrameId → Prop) (host : Host) :
    (locality base own).Lawful host where
  form_head hForm _ := hForm.of_mem List.mem_cons_self
  form_rest hForm e hMem := hForm.of_mem (List.mem_cons_of_mem _ hMem)
  form_body := AssignsNothing.body
  frames_mono _ := id
  procedures_mono _ := id
  lookup hStores _ _ hFound p hMem := hStores.2 p (Store.holds_of_lookup? hFound hMem)
  define := by
    rintro s f v ⟨hKept, hHolds⟩ hFrame hValue name
    refine ⟨hKept.define hFrame name v, fun p hHeld => ?_⟩
    exact (Store.holds_define hHeld).elim (hValue p) (hHolds p)
  assign _ _ _ hForm := absurd List.mem_cons_self hForm
  child hStores _ hEntries := locality_opens hStores hEntries _
  call hStores _ hEntries := locality_opens hStores hEntries _
  body := by
    intro s k hProcedure
    cases hProcedure with
    | closure hBody => exact hBody
  makes hStores _ hForm _ _ := ⟨⟨⟨hStores.1.size, hStores.1.kept⟩, hStores.2⟩, .closure hForm⟩
  native _ _ hNative := nomatch hNative

/-- Definitions do not leak. If there is no assignment in a form and none in the body of any closure
at hand, then the evaluation of the form changes no frame that was there before except for the one
that it is evaluated in, and a call of a closure changes none at all, whatever is defined on the
way. It does not matter whether they come to a value, fail, are cut off by a limit of depth or do
not end. -/
theorem definitions_stay_local (host : Host) (m : Machine)
    (hBuiltins : ∀ native, m.store.Holds (.native native) →
      ∃ procedure, native = .builtin procedure)
    (hBodies : ∀ k, m.store.Holds (.closure k) → k.body.AssignsNothing) :
    (∀ limit (e : Expression) frame, e.AssignsNothing → ∀ f < m.store.frames.size, f ≠ frame →
      (Outcome.machine (Interpreter.evaluate host limit e frame m)).store.frames[f]? =
        m.store.frames[f]?) ∧
    ∀ (k : Closure) arguments caller, k.body.AssignsNothing →
      (∀ v ∈ arguments, ∀ native, .native native ∈ v.procedures →
        ∃ procedure, native = .builtin procedure) →
      (∀ v ∈ arguments, ∀ k, .closure k ∈ v.procedures → k.body.AssignsNothing) →
      ∀ f < m.store.frames.size,
        (Outcome.machine
          (applyUnlimited host (.procedure (.closure k)) arguments caller m)).store.frames[f]? =
          m.store.frames[f]? := by
  have hHolds (p : Procedure) (hHeld : m.store.Holds p) : NonassigningProcedures p := by
    cases p with
    | native native =>
      obtain ⟨procedure, rfl⟩ := hBuiltins native hHeld
      exact .builtin procedure
    | closure k => exact .closure (hBodies k hHeld)
  constructor
  · intro limit e frame hForm f hSize hOther
    have hKeeps := (locality_lawful m.store (· = frame) host).evaluate limit hForm (.inl rfl)
      ⟨.refl _ _, hHolds⟩
    exact hKeeps.stores.1.kept hSize hOther
  · intro k arguments caller hBody hNatives hClosures f hSize
    have hArguments (v : Value) (hMem : v ∈ arguments) (p : Procedure)
      (hProcedure : p ∈ v.procedures) :
        NonassigningProcedures p := by
      cases p with
      | native native =>
        obtain ⟨procedure, rfl⟩ := hNatives v hMem native hProcedure
        exact .builtin procedure
      | closure k => exact .closure (hClosures v hMem k hProcedure)
    have hKeeps := (locality_lawful m.store (fun _ => False) host).callClosure (.closure hBody)
      hArguments ⟨.refl _ _, hHolds⟩
    exact hKeeps.stores.1.kept hSize not_false

/-- A procedure that defines a name of its own does not touch the one of the frame that it was made
in, neither when it is called in another definition nor when it is applied. -/
theorem definitions_stay_local_shadow :
    let shadow : Closure := ⟨0, ["y"], .list [.text "define", .text "x", .text "y"], 0⟩
    let m : Machine := ⟨⟨#[⟨.ofList [("x", .integer 0), ("shadow", .procedure (.closure shadow))],
      none⟩, ⟨.ofList [], some 0⟩], 1⟩, []⟩
    let definition : Expression :=
      .list [.text "define", .text "z", .list [.text "shadow", .integer 1]]
    (∀ native, m.store.Holds (.native native) → ∃ procedure, native = .builtin procedure) ∧
      (∀ k, m.store.Holds (.closure k) → k.body.AssignsNothing) ∧ definition.AssignsNothing ∧
      (Outcome.machine (Interpreter.evaluate ([] : Host) none definition 1 m)).store.frames[0]? =
        m.store.frames[0]? ∧
      (Outcome.machine (applyUnlimited ([] : Host) (.procedure (.closure shadow)) [.integer 1]
        0 m)).store.frames[0]? = m.store.frames[0]? := by
  intro shadow m definition
  have hHeld {p : Procedure} (hHeld : m.store.Holds p) : p = .closure shadow := by
    obtain ⟨f, name, v, hFound, hMem⟩ := hHeld
    match f with
    | 0 =>
      have hEntry : (name, v) ∈ _ := Bindings.mem_of_find?_ofList hFound
      simp only [List.mem_cons, Prod.mk.injEq, List.not_mem_nil, or_false] at hEntry
      rcases hEntry with ⟨-, rfl⟩ | ⟨-, rfl⟩
      · cases hMem
      · exact List.mem_singleton.1 hMem
    | 1 => cases hFound
    | f + 2 => cases hFound
  have hBuiltins (native : Native) (hNative : m.store.Holds (.native native)) :
      ∃ procedure, native = .builtin procedure := nomatch hHeld hNative
  have hBody : shadow.body.AssignsNothing := by decide
  have hBodies (k : Closure) (hClosure : m.store.Holds (.closure k)) : k.body.AssignsNothing := by
    cases hHeld hClosure
    exact hBody
  have hDefinition : definition.AssignsNothing := by decide
  obtain ⟨hEvaluate, hApply⟩ := definitions_stay_local [] m hBuiltins hBodies
  refine ⟨hBuiltins, hBodies, hDefinition, hEvaluate none definition 1 hDefinition 0 (by decide)
    (by decide), hApply shadow [.integer 1] 0 hBody ?_ ?_ 0 (by decide)⟩ <;> simp [Value.procedures]

end Evaluation

end EmbeddedLisp
