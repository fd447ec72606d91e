import EmbeddedLisp.Proofs.Scope.Correspondence

/-! Stores that are the same up to the numbers that closures were given. They have the same frames
with the same parents, and each binds the same names to values that differ in nothing but such
numbers. -/
namespace EmbeddedLisp

/-- Procedures that are the same, up to the numbers of closures. `Ids` says which numbers stand for
each other. -/
inductive Renumbered (Ids : Nat → Nat → Prop) : Procedure → Procedure → Prop where
  | native (native : Native) : Renumbered Ids (.native native) (.native native)
  | closure {id id' : Nat} (parameters : List String) (body : Expression) (frame : FrameId)
      (hIds : Ids id id') :
      Renumbered Ids (.closure ⟨id, parameters, body, frame⟩)
      (.closure ⟨id', parameters, body, frame⟩)

/-- A value is its own counterpart if the numbers in it are. -/
theorem alike_renumbered {Ids : Nat → Nat → Prop} {v : Value}
    (hSame : ∀ k, .closure k ∈ v.procedures → Ids k.id k.id) : Alike (Renumbered Ids) v v := by
  have hEach (p : Procedure) (hMem : p ∈ v.procedures) : Renumbered Ids p p := by
    cases p with
    | native native => exact .native native
    | closure k => exact .closure k.parameters k.body k.frame (hSame k hMem)
  refine Alike.imp (fun p q hRelated => ?_) (alike_of_procedures v hEach)
  exact hRelated.1 ▸ hRelated.2

/-- Stores with the same frames, up to the numbers of closures. -/
structure SameFrames (Ids : Nat → Nat → Prop) (s t : Store) : Prop where
  size : t.frames.size = s.frames.size
  parent : ∀ f, t.parent? f = s.parent? f
  bindings : ∀ f, (s.bindings f).Related (Alike (Renumbered Ids)) (t.bindings f)

namespace SameFrames

variable {Ids : Nat → Nat → Prop} {s t : Store}

/-- A store is its own counterpart if the closures that it holds keep their numbers. -/
theorem refl (hHeld : ∀ k, s.Holds (.closure k) → Ids k.id k.id) : SameFrames Ids s s where
  size := rfl
  parent _ := rfl
  bindings f name := by
    cases hFound : (s.bindings f).find? name with
    | none => exact .none
    | some v => exact .some (alike_renumbered fun k hMem => hHeld k ⟨f, name, v, hFound, hMem⟩)

/-- Under the same name in the same frame there are values that are the same up to the numbers. -/
theorem lookup? (h : SameFrames Ids s t) (f : FrameId) (name : String) :
    Option.Rel (Alike (Renumbered Ids)) (s.lookup? f name) (t.lookup? f name) := by
  simp only [Store.lookup?, Store.chain_congr h.size h.parent]
  induction s.chain f with
  | nil => exact .none
  | cons g rest ih =>
    simp only [List.findSome?_cons]
    have hValues := h.bindings g name
    generalize (s.bindings g).find? name = left at hValues ⊢
    generalize (t.bindings g).find? name = right at hValues ⊢
    cases hValues with
    | none => exact ih
    | some hValues => exact .some hValues

theorem owner? (h : SameFrames Ids s t) (f : FrameId) (name : String) :
    t.owner? f name = s.owner? f name := by
  simp only [Store.owner?, Store.chain_congr h.size h.parent, (h.bindings _).binds_eq]

/-- The same name is bound in the same frame of both stores. -/
theorem define (h : SameFrames Ids s t) (f : FrameId) (name : String) {v v' : Value}
    (hValues : Alike (Renumbered Ids) v v') :
    SameFrames Ids (s.define f name v) (t.define f name v') where
  size := by simpa using h.size
  parent g := by simpa using h.parent g
  bindings g sought := by
    rw [Store.find?_define, Store.find?_define, h.size]
    split
    · exact .some hValues
    · exact h.bindings g sought

theorem addFrame (h : SameFrames Ids s t) {entries entries' : List (String × Value)}
    (hEntries : List.Forall₂ (fun x y => x.1 = y.1 ∧ Alike (Renumbered Ids) x.2 y.2)
      entries entries') (parent : Option FrameId) :
    SameFrames Ids (s.addFrame (.ofList entries) parent).2
      (t.addFrame (.ofList entries') parent).2 where
  size := by rw [Store.size_addFrame, Store.size_addFrame, h.size]
  parent f := by rw [Store.parent?_addFrame, Store.parent?_addFrame, h.size, h.parent]
  bindings f := by
    rw [Store.bindings_addFrame, Store.bindings_addFrame, h.size]
    split
    · exact .ofList hEntries
    · exact h.bindings f

/-- How many closures have been made does not show in the frames. -/
theorem withClosures (h : SameFrames Ids s t) (made made' : Nat) :
    SameFrames Ids { s with closures := made } { t with closures := made' } where
  size := h.size
  parent := h.parent
  bindings := h.bindings

end SameFrames

end EmbeddedLisp
