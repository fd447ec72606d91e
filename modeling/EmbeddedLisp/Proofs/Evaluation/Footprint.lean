import EmbeddedLisp.Proofs.Evaluation.Diagonal

/-! The footprint of an evaluation. Which frames are reached from where changes in its course, as
closures come to be bound in frames that were there before. What does not change is that everything
at hand leads only to frames that were reached at the start and to new ones, and that no other frame
is written to. -/
namespace EmbeddedLisp

/-- The frames that an evaluation may come to: some of its own, and those made since. -/
def Store.Region (base : Store) (own : FrameId → Prop) (f : FrameId) : Prop :=
  own f ∨ base.frames.size ≤ f

/-- What is bound in the frames that are reached from one of them, as nothing is in those that are
made later. -/
theorem Store.boundIn_region {s : Store} {f : FrameId} {Good : Procedure → Prop}
    (hBuiltins : ∀ native, s.Holds (.native native) → ∃ procedure, native = .builtin procedure)
    (hBuiltin : ∀ procedure, Good (.native (.builtin procedure)))
    (hClosure : ∀ {g name v k}, s.Reaches f g → (s.bindings g).find? name = some v →
      Procedure.closure k ∈ v.procedures → Good (.closure k)) :
    s.BoundIn (s.Region (s.Reaches f)) Good := by
  intro g name v hRegion hFound p hMem
  rcases hRegion with hReaches | hNone
  · cases p with
    | native native =>
      obtain ⟨procedure, rfl⟩ := hBuiltins native ⟨g, name, v, hFound, hMem⟩
      exact hBuiltin procedure
    | closure k => exact hClosure hReaches hFound hMem
  · rw [bindings_of_size_le hNone] at hFound
    cases hFound

/-- The procedures that do not lead out of a region. -/
inductive LocalProcedures (Region : FrameId → Prop) : Procedure → Prop where
  | builtin (procedure : Builtin) : LocalProcedures Region (.native (.builtin procedure))
  | closure {k : Closure} (hFrame : Region k.frame) : LocalProcedures Region (.closure k)

/-- A store in which nothing leads out of the region that an evaluation may come to, and in which
all else is as it was. -/
structure Footprint (base : Store) (own : FrameId → Prop) (s : Store) : Prop where
  size : base.frames.size ≤ s.frames.size
  kept : ∀ {f}, f < base.frames.size → ¬own f → s.frames[f]? = base.frames[f]?
  parent : ∀ {f g}, base.Region own f → s.parent? f = some g → base.Region own g
  bindings : ∀ {f name v}, base.Region own f → (s.bindings f).find? name = some v →
    ∀ p ∈ v.procedures, LocalProcedures (base.Region own) p

namespace Footprint

variable {base s : Store} {own : FrameId → Prop} {f g : FrameId}

/-- The frames that are reached from one of them are an evaluation's own. -/
theorem start
    (hBuiltins : ∀ native, s.Holds (.native native) → ∃ procedure, native = .builtin procedure)
    (f : FrameId) : Footprint s (s.Reaches f) s where
  size := Nat.le_refl _
  kept _ _ := rfl
  parent := by
    intro g h hRegion hParent
    rcases hRegion with hOwn | hNone
    · exact .inl (hOwn.tail (.inl hParent))
    · rw [Store.parent?_of_size_le hNone] at hParent
      cases hParent
  bindings := by
    refine Store.boundIn_region hBuiltins .builtin ?_
    intro g name v k hReaches hFound hMem
    exact .closure (.inl (hReaches.tail (.inr ⟨name, v, k, hFound, hMem, rfl⟩)))

theorem keptOutside (hFootprint : Footprint base own s) : base.KeptOutside own s where
  size := hFootprint.size
  kept := hFootprint.kept

/-- The parents of a frame in the region are in the region. -/
theorem chain (hFootprint : Footprint base own s) (hRegion : base.Region own f) :
    ∀ g ∈ s.chain f, base.Region own g :=
  Store.chain_forall hFootprint.parent hRegion

theorem define (hFootprint : Footprint base own s) (hRegion : base.Region own f) {v : Value}
    (hValue : ∀ p ∈ v.procedures, LocalProcedures (base.Region own) p) (name : String) :
    Footprint base own (s.define f name v) where
  size := (hFootprint.keptOutside.define hRegion name v).size
  kept := (hFootprint.keptOutside.define hRegion name v).kept
  parent hInside hParent := hFootprint.parent hInside (by simpa using hParent)
  bindings := Store.BoundIn.define hFootprint.bindings hValue f name

theorem addFrame (hFootprint : Footprint base own s) (hRegion : base.Region own f)
    {entries : List (String × Value)}
    (hEntries : ∀ entry ∈ entries, ∀ p ∈ entry.2.procedures, LocalProcedures (base.Region own) p) :
    Footprint base own (s.addFrame (.ofList entries) (some f)).2 where
  size := (hFootprint.keptOutside.addFrame _ _).size
  kept := (hFootprint.keptOutside.addFrame _ _).kept
  parent := by
    intro g h hInside hParent
    rw [Store.parent?_addFrame] at hParent
    split at hParent
    · cases hParent
      exact hRegion
    · exact hFootprint.parent hInside hParent
  bindings := Store.BoundIn.addFrame hFootprint.bindings hEntries (some f)

theorem addClosure (hFootprint : Footprint base own s) (made : Nat) :
    Footprint base own { s with closures := made } where
  size := hFootprint.size
  kept := hFootprint.kept
  parent := hFootprint.parent
  bindings := hFootprint.bindings

/-- Whatever is reached from the region is in it. -/
theorem region_of_reaches (hFootprint : Footprint base own s) (hRegion : base.Region own f)
    (hReaches : s.Reaches f g) : base.Region own g := by
  induction hReaches with
  | refl => exact hRegion
  | tail _ hRefers ih =>
    rcases hRefers with hParent | ⟨name, v, k, hFound, hMem, rfl⟩
    · exact hFootprint.parent ih hParent
    · cases hFootprint.bindings ih hFound _ hMem with
      | closure hFrame => exact hFrame

end Footprint

namespace Evaluation

/-- One run that keeps to its footprint, compared with itself. -/
def footprint (base : Store) (own : FrameId → Prop) : Diagonal where
  Stores s t := s = t ∧ Footprint base own s
  Frames := base.Region own
  Procedures := LocalProcedures (base.Region own)
  Forms _ := True

/-- No operation of the evaluator reaches out of the region. -/
theorem footprint_lawful (base : Store) (own : FrameId → Prop) : (footprint base own).Lawful where
  form_head _ _ := trivial
  form_rest _ _ _ := trivial
  form_body _ := trivial
  native := by
    rintro native ⟨procedure⟩
    exact ⟨procedure, rfl⟩
  closure := by
    intro k hLocal
    cases hLocal with
    | closure hFrame => exact ⟨trivial, hFrame⟩
  makes hFrame _ _ _ := .closure hFrame
  size := by
    rintro s _ ⟨rfl, -⟩
    rfl
  closures := by
    rintro s _ ⟨rfl, -⟩
    rfl
  lookup := by
    rintro s _ f name ⟨rfl, hFootprint⟩ hFrame -
    refine ⟨rfl, fun v hFound => ?_⟩
    obtain ⟨g, hMem, hBound⟩ := Store.mem_chain_of_lookup? hFound
    exact hFootprint.bindings (hFootprint.chain hFrame g hMem) hBound
  owner := by
    rintro s _ f name e ⟨rfl, hFootprint⟩ hFrame -
    exact ⟨rfl, fun g hFound => hFootprint.chain hFrame g (Store.mem_chain_of_owner? hFound)⟩
  define := by
    rintro s _ f v ⟨rfl, hFootprint⟩ hFrame hValue name
    exact ⟨rfl, hFootprint.define hFrame hValue name⟩
  addFrame := by
    rintro s _ f entries ⟨rfl, hFootprint⟩ hFrame hEntries
    exact ⟨.inr hFootprint.size, rfl, hFootprint.addFrame hFrame hEntries⟩
  addClosure := by
    rintro s _ ⟨rfl, hFootprint⟩ made
    exact ⟨rfl, hFootprint.addClosure made⟩

/-- An evaluation leaves alone what it does not reach, and gets hold of nothing that it did not
reach. Whether it comes to a value, fails, is cut off by a limit of depth or does not end: frames
that were not reached from its own frame are the same afterwards, and what is reached afterwards,
from its frame or from the value, was reached before or is new. -/
theorem evaluation_footprint (host : Host) (limit : Option Nat) (e : Expression) (frame : FrameId)
    (m : Machine)
    (hBuiltins : ∀ native, m.store.Holds (.native native) →
      ∃ procedure, native = .builtin procedure) :
    let outcome := Interpreter.evaluate host limit e frame m
    let after := (Outcome.machine outcome).store
    (∀ f < m.store.frames.size, ¬m.store.Reaches frame f → after.frames[f]? = m.store.frames[f]?) ∧
      ∀ f < after.frames.size,
        (after.Reaches frame f ∨ ∃ v k, Outcome.result outcome = .ok v ∧
          Procedure.closure k ∈ v.procedures ∧ after.Reaches k.frame f) →
        m.store.Reaches frame f ∨ m.store.frames.size ≤ f := by
  have hStart := Footprint.start hBuiltins frame
  have hFrame : m.store.Region (m.store.Reaches frame) frame := .inl .refl
  obtain ⟨-, ⟨-, hFootprint⟩, hValue⟩ :=
    (footprint_lawful m.store (m.store.Reaches frame)).evaluate host limit (e := e)
      trivial hFrame rfl
      ⟨rfl, hStart⟩
  refine ⟨fun f hSize hForeign => hFootprint.kept hSize hForeign, fun f _ hReached => ?_⟩
  rcases hReached with hReaches | ⟨v, k, hResult, hMem, hReaches⟩
  · exact hFootprint.region_of_reaches hFrame hReaches
  · cases hValue v hResult _ hMem with
    | closure hClosure => exact hFootprint.region_of_reaches hClosure hReaches

/-- A definition in a frame that knows the addition is not seen in a frame apart from it. -/
theorem evaluation_footprint_apart :
    let definition : Expression :=
      .list [.text "define", .text "x", .list [.text "+", .integer 0, .integer 1]]
    let m : Machine := ⟨⟨#[⟨.ofList [("+", .procedure (.native (.builtin .add)))], none⟩,
      ⟨.ofList [("x", .integer 0)], none⟩], 0⟩, []⟩
    (∀ native, m.store.Holds (.native native) → ∃ procedure, native = .builtin procedure) ∧
      (Outcome.machine (Interpreter.evaluate ([] : Host) none definition 0 m)).store.frames[1]? =
        m.store.frames[1]? := by
  intro definition m
  have hEntries {f : FrameId} {name : String} {v : Value}
      (hFound : (m.store.bindings f).find? name = some v) :
      f = 0 ∧ v = .procedure (.native (.builtin .add)) ∨ v = .integer 0 := by
    match f with
    | 0 =>
      have hMem : (name, v) ∈ _ := Bindings.mem_of_find?_ofList hFound
      simp at hMem
      exact .inl ⟨rfl, hMem.2⟩
    | 1 =>
      have hMem : (name, v) ∈ _ := Bindings.mem_of_find?_ofList hFound
      simp at hMem
      exact .inr hMem.2
    | f + 2 => cases hFound
  have hBuiltins (native : Native) (hHeld : m.store.Holds (.native native)) :
      ∃ procedure, native = .builtin procedure := by
    obtain ⟨f, name, v, hFound, hMem⟩ := hHeld
    rcases hEntries hFound with ⟨-, rfl⟩ | rfl
    · exact ⟨.add, by simpa [Value.procedures] using hMem⟩
    · cases hMem
  refine ⟨hBuiltins,
    (evaluation_footprint [] none definition 0 m hBuiltins).1 1 (by decide) fun hReaches => ?_⟩
  rcases hReaches.cases_head with hSame | ⟨f, hRefers, -⟩
  · cases hSame
  · rcases hRefers with hParent | ⟨name, v, k, hFound, hMem, -⟩
    · cases hParent
    · rcases hEntries hFound with ⟨-, rfl⟩ | rfl <;> simp [Value.procedures] at hMem

end Evaluation

end EmbeddedLisp
