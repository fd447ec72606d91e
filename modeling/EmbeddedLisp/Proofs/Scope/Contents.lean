import EmbeddedLisp.Scope.Store
import Mathlib.Logic.Relation

/-! What is in a store: the frames and what its operations do to them, the procedures that are bound
in frames, and the frames that are reached from a frame. -/
namespace EmbeddedLisp

namespace Value

mutual

/-- The procedures in a value, those in its elements among them. -/
def procedures : Value → List Procedure
  | .procedure p => [p]
  | .list elements => proceduresEach elements
  | _ => []

def proceduresEach : List Value → List Procedure
  | [] => []
  | v :: rest => v.procedures ++ proceduresEach rest

end

end Value

namespace Bindings

variable {α : Type}

theorem mem_of_find?_insertAll {b : Bindings α} {entries : List (String × α)} {name : String}
    {a : α} (hFound : (b.insertAll entries).find? name = some a) :
    (name, a) ∈ entries ∨ b.find? name = some a := by
  induction entries generalizing b with
  | nil => exact .inr hFound
  | cons entry rest ih =>
    rcases ih hFound with hRest | hBefore
    · exact .inl (List.mem_cons_of_mem _ hRest)
    · rw [find?_insert] at hBefore
      split at hBefore
      · rename_i hName
        cases hBefore
        exact .inl (hName ▸ List.mem_cons_self)
      · exact .inr hBefore

/-- What a name is bound to comes from one of the entries. -/
theorem mem_of_find?_ofList {entries : List (String × α)} {name : String} {a : α}
    (hFound : (ofList entries).find? name = some a) : (name, a) ∈ entries := by
  rcases mem_of_find?_insertAll hFound with hMem | hNone
  · exact hMem
  · cases hNone

end Bindings

namespace Store

/-- A definition changes one frame. -/
theorem getElem?_define (s : Store) (f : FrameId) (name : String) (v : Value) {g : FrameId}
    (hOther : f ≠ g) : (s.define f name v).frames[g]? = s.frames[g]? := by
  simp [define, Array.getElem?_modify, hOther]

@[simp] theorem size_define (s : Store) (f : FrameId) (name : String) (v : Value) :
    (s.define f name v).frames.size = s.frames.size := Array.size_modify

/-- In a frame that there is, a definition binds the name and leaves the others. -/
theorem bindings_define (s : Store) {f : FrameId} (hSize : f < s.frames.size) (name : String)
    (v : Value) (g : FrameId) :
    (s.define f name v).bindings g = if f = g then (s.bindings f).insert name v
      else s.bindings g := by
  by_cases hSame : f = g
  · subst hSame
    simp only [bindings, define, Array.getElem?_modify, if_true, Array.getElem?_eq_getElem hSize,
      Option.map_some]
  · rw [if_neg hSame, bindings, getElem?_define s f name v hSame, bindings]

@[simp] theorem parent?_define (s : Store) (f : FrameId) (name : String) (v : Value) (g : FrameId) :
    (s.define f name v).parent? g = s.parent? g := by
  simp only [parent?, define, Array.getElem?_modify]
  split
  · cases s.frames[g]? <;> rfl
  · rfl

variable (s : Store) (b : Bindings Value) (parent : Option FrameId)

/-- A new frame comes behind the ones that there are, which stay as they are. -/
theorem getElem?_addFrame {g : FrameId} (hSize : g < s.frames.size) :
    (s.addFrame b parent).2.frames[g]? = s.frames[g]? := by
  simp [addFrame, Array.getElem?_push, Nat.ne_of_lt hSize]

theorem size_addFrame : (s.addFrame b parent).2.frames.size = s.frames.size + 1 := by
  simp [addFrame]

/-- The new frame has the bindings it was made with. -/
theorem bindings_addFrame (g : FrameId) :
    (s.addFrame b parent).2.bindings g = if g = s.frames.size then b else s.bindings g := by
  by_cases hNew : g = s.frames.size <;> simp [bindings, addFrame, Array.getElem?_push, hNew]

theorem parent?_addFrame (g : FrameId) :
    (s.addFrame b parent).2.parent? g = if g = s.frames.size then parent else s.parent? g := by
  by_cases hNew : g = s.frames.size <;> simp [parent?, addFrame, Array.getElem?_push, hNew]

/-- A definition in a frame that there is not does nothing. -/
theorem define_of_size_le {s : Store} {f : FrameId} (hSize : s.frames.size ≤ f) (name : String)
    (v : Value) : s.define f name v = s := by
  have hSame : s.frames.modify f
    (fun frame => { frame with bindings := frame.bindings.insert name v }) =
      s.frames := by
    apply Array.ext_getElem?
    intro g
    rw [Array.getElem?_modify]
    split
    · rename_i hHere
      rw [← hHere, Array.getElem?_eq_none hSize, Option.map_none]
    · rfl
  simp only [define, hSame]

/-- What a name is bound to in a frame after a definition. -/
theorem find?_define (s : Store) (f : FrameId) (name : String) (v : Value) (g : FrameId)
    (sought : String) : ((s.define f name v).bindings g).find? sought =
      if f < s.frames.size ∧ f = g ∧
        name = sought then some v else (s.bindings g).find? sought := by
  by_cases hSize : f < s.frames.size
  · rw [bindings_define s hSize]
    by_cases hFrame : f = g
    · subst hFrame
      simp [Bindings.find?_insert, hSize]
    · simp [hFrame]
  · rw [define_of_size_le (Nat.not_lt.1 hSize)]
    simp [hSize]

/-- Where there is no frame, nothing is bound, -/
theorem bindings_of_size_le {s : Store} {f : FrameId} (hSize : s.frames.size ≤ f) :
    s.bindings f = .empty := by
  rw [bindings, Array.getElem?_eq_none hSize]

/-- and nothing is above. -/
theorem parent?_of_size_le {s : Store} {f : FrameId} (hSize : s.frames.size ≤ f) :
    s.parent? f = none := by
  rw [parent?, Array.getElem?_eq_none hSize, Option.bind_none]

/-- What passes from frames to their parents holds all along a chain. -/
theorem chain_forall {s : Store} {P : FrameId → Prop}
    (hParent : ∀ {f g}, P f → s.parent? f = some g → P g) {f : FrameId} (hStart : P f) :
    ∀ g ∈ s.chain f, P g := by
  induction f using Nat.strongRecOn with
  | _ f ih =>
    intro g hMem
    rw [chain] at hMem
    split at hMem
    · split at hMem
      · rename_i parent hSome
        split at hMem
        · rename_i hOlder
          rcases List.mem_cons.1 hMem with rfl | hMem
          · exact hStart
          · exact ih parent hOlder (hParent hStart hSome) g hMem
        · exact List.mem_singleton.1 hMem ▸ hStart
      · exact List.mem_singleton.1 hMem ▸ hStart
    · cases hMem

/-- The chain of a frame depends on nothing but parents. -/
theorem chain_congr {s t : Store} (hSize : t.frames.size = s.frames.size)
    (hParent : ∀ f, t.parent? f = s.parent? f) (f : FrameId) : t.chain f = s.chain f := by
  induction f using Nat.strongRecOn with
  | _ f ih =>
    rw [chain, chain, hSize, hParent]
    split
    · split
      · rename_i parent _
        split
        · rename_i hOlder
          rw [ih parent hOlder]
        · rfl
      · rfl
    · rfl

/-- A lookup finds what some frame of the chain binds. -/
theorem mem_chain_of_lookup? {s : Store} {f : FrameId} {name : String} {v : Value}
    (hFound : s.lookup? f name = some v) : ∃ g ∈ s.chain f, (s.bindings g).find? name = some v :=
  List.exists_of_findSome?_eq_some hFound

theorem mem_chain_of_owner? {s : Store} {f g : FrameId} {name : String}
    (hFound : s.owner? f name = some g) : g ∈ s.chain f :=
  List.mem_of_find?_eq_some hFound

/-- Whether the procedures that are bound in some frames are all good. -/
def BoundIn (s : Store) (Frames : FrameId → Prop) (Good : Procedure → Prop) : Prop :=
  ∀ {f name v}, Frames f → (s.bindings f).find? name = some v → ∀ p ∈ v.procedures, Good p

namespace BoundIn

variable {s : Store} {Frames : FrameId → Prop} {Good : Procedure → Prop}
  (hBound : s.BoundIn Frames Good)

include hBound

/-- A definition of a good value keeps all bindings good. -/
theorem define {v : Value} (hValue : ∀ p ∈ v.procedures, Good p) (f : FrameId) (name : String) :
    (s.define f name v).BoundIn Frames Good := by
  intro g sought u hFrame hFound
  rw [find?_define] at hFound
  split at hFound
  · cases hFound
    exact hValue
  · exact hBound hFrame hFound

/-- So does a new frame with good values. -/
theorem addFrame {entries : List (String × Value)}
    (hEntries : ∀ entry ∈ entries, ∀ p ∈ entry.2.procedures, Good p) (parent : Option FrameId) :
    (s.addFrame (.ofList entries) parent).2.BoundIn Frames Good := by
  intro g name v hFrame hFound
  rw [bindings_addFrame] at hFound
  split at hFound
  · exact hEntries (name, v) (Bindings.mem_of_find?_ofList hFound)
  · exact hBound hFrame hFound

end BoundIn

/-- Whether a procedure is bound in some frame, or is in a list that is. -/
def Holds (s : Store) (p : Procedure) : Prop :=
  ∃ f name v, (s.bindings f).find? name = some v ∧ p ∈ v.procedures

/-- At the start no procedure is bound anywhere. -/
theorem not_holds_empty (p : Procedure) : ¬empty.Holds p := by
  rintro ⟨f, name, v, hFound, -⟩
  rw [bindings_of_size_le (Nat.zero_le f)] at hFound
  cases hFound

/-- The procedures in a value that is found are bound. -/
theorem holds_of_lookup? {s : Store} {f : FrameId} {name : String} {v : Value} {p : Procedure}
    (hFound : s.lookup? f name = some v) (hMem : p ∈ v.procedures) : s.Holds p := by
  obtain ⟨g, -, hBound⟩ := mem_chain_of_lookup? hFound
  exact ⟨g, name, v, hBound, hMem⟩

/-- After a definition a procedure is bound that was bound before, or is in the new value. -/
theorem holds_define {s : Store} {f : FrameId} {name : String} {v : Value} {p : Procedure}
    (hHeld : (s.define f name v).Holds p) : p ∈ v.procedures ∨ s.Holds p := by
  obtain ⟨g, sought, u, hFound, hMem⟩ := hHeld
  rw [find?_define] at hFound
  split at hFound
  · cases hFound
    exact .inl hMem
  · exact .inr ⟨g, sought, u, hFound, hMem⟩

/-- A new frame binds what it is made with, and nothing else is bound anew. -/
theorem holds_addFrame {s : Store} {entries : List (String × Value)} {parent : Option FrameId}
    {p : Procedure} (hHeld : (s.addFrame (.ofList entries) parent).2.Holds p) :
    (∃ entry ∈ entries, p ∈ entry.2.procedures) ∨ s.Holds p := by
  obtain ⟨g, name, v, hFound, hMem⟩ := hHeld
  rw [bindings_addFrame] at hFound
  split at hFound
  · exact .inl ⟨(name, v), Bindings.mem_of_find?_ofList hFound, hMem⟩
  · exact .inr ⟨g, name, v, hFound, hMem⟩

/-- Whether a frame leads to another one: to its parent, or to the frame of a closure that it
binds. -/
def Refers (s : Store) (f g : FrameId) : Prop :=
  s.parent? f = some g ∨
    ∃ name v k, (s.bindings f).find? name = some v ∧ Procedure.closure k ∈ v.procedures ∧
    k.frame = g

/-- Whether one frame can be come to from another, in any number of steps. -/
def Reaches (s : Store) : FrameId → FrameId → Prop := Relation.ReflTransGen s.Refers

/-- A store in which only some frames of an earlier one, and those made since, may be different. -/
structure KeptOutside (base : Store) (own : FrameId → Prop) (s : Store) : Prop where
  size : base.frames.size ≤ s.frames.size
  kept : ∀ {f}, f < base.frames.size → ¬own f → s.frames[f]? = base.frames[f]?

namespace KeptOutside

variable {base s : Store} {own : FrameId → Prop} {f : FrameId}

theorem refl (s : Store) (own : FrameId → Prop) : KeptOutside s own s where
  size := Nat.le_refl _
  kept _ _ := rfl

theorem define (hKept : KeptOutside base own s) (hOwn : own f ∨ base.frames.size ≤ f)
    (name : String) (v : Value) : KeptOutside base own (s.define f name v) where
  size := by simpa using hKept.size
  kept := by
    intro g hSize hForeign
    rw [getElem?_define, hKept.kept hSize hForeign]
    rintro rfl
    exact hOwn.elim hForeign (Nat.not_le_of_lt hSize)

theorem addFrame (hKept : KeptOutside base own s) (b : Bindings Value) (parent : Option FrameId) :
    KeptOutside base own (s.addFrame b parent).2 where
  size := by
    rw [size_addFrame]
    exact Nat.le_succ_of_le hKept.size
  kept := by
    intro g hSize hForeign
    rw [getElem?_addFrame _ _ _ (Nat.lt_of_lt_of_le hSize hKept.size), hKept.kept hSize hForeign]

end KeptOutside

end Store

end EmbeddedLisp
