import EmbeddedLisp.Proofs.Scope.Contents

/-! Stores that grow. No operation takes anything away: frames are added, a frame keeps its parent,
and a name that is bound in a frame stays bound there. So what a chain consists of is settled when
its frame is made, and a name that can be looked up can always be looked up. -/
namespace EmbeddedLisp

namespace Bindings

variable {α : Type}

/-- Binding a name unbinds no other one. -/
theorem binds_insert (b : Bindings α) (name : String) (a : α) (sought : String) :
    (b.insert name a).binds sought = (decide (name = sought) || b.binds sought) := by
  by_cases hSame : name = sought <;> simp [binds, find?_insert, hSame]

/-- A frame binds a name at most once, since its names are in increasing order. -/
theorem nodup_names (b : Bindings α) : b.names.Nodup :=
  List.pairwise_map.2 (b.increasing.imp String.ne_of_lt)

/-- Every entry is the one that is found under its name. -/
theorem find?_of_mem {b : Bindings α} {name : String} {a : α} (hMem : (name, a) ∈ b.entries) :
    b.find? name = some a := by
  obtain ⟨entries, increasing⟩ := b
  induction entries with
  | nil => cases hMem
  | cons entry rest ih =>
    obtain ⟨hFirst, hRest⟩ := List.pairwise_cons.1 increasing
    rcases List.mem_cons.1 hMem with rfl | hMem
    · simp [find?]
    · have hOther : entry.1 ≠ name := String.ne_of_lt (hFirst _ hMem)
      simpa [find?, hOther] using ih hRest hMem

end Bindings

namespace Store

/-- What a store can become: it may have more frames and more bindings, and there is no frame or
binding that is gone. -/
structure Grows (s t : Store) : Prop where
  size : s.frames.size ≤ t.frames.size
  parent : ∀ {f}, f < s.frames.size → t.parent? f = s.parent? f
  binds : ∀ {f name}, (s.bindings f).binds name → (t.bindings f).binds name

namespace Grows

variable {s t u : Store} {f : FrameId}

theorem refl (s : Store) : Grows s s where
  size := Nat.le_refl _
  parent _ := rfl
  binds := id

/-- A store that has grown twice has grown. -/
theorem trans (hFirst : s.Grows t) (hSecond : t.Grows u) : s.Grows u where
  size := Nat.le_trans hFirst.size hSecond.size
  parent hSize := by
    rw [hSecond.parent (Nat.lt_of_lt_of_le hSize hFirst.size), hFirst.parent hSize]
  binds hBinds := hSecond.binds (hFirst.binds hBinds)

/-- A definition removes no binding and moves no frame. -/
theorem define (s : Store) (f : FrameId) (name : String) (v : Value) :
    s.Grows (s.define f name v) where
  size := Nat.le_of_eq (size_define s f name v).symm
  parent _ := parent?_define s f name v _
  binds := by
    intro g sought hBinds
    by_cases hSize : f < s.frames.size
    · rw [bindings_define s hSize]
      split
      · rename_i hSame
        rw [Bindings.binds_insert, hSame, hBinds, Bool.or_true]
      · exact hBinds
    · rwa [define_of_size_le (Nat.not_lt.1 hSize)]

/-- A new frame leaves the others their parents and their bindings. -/
theorem addFrame (s : Store) (b : Bindings Value) (parent : Option FrameId) :
    s.Grows (s.addFrame b parent).2 where
  size := by
    rw [size_addFrame]
    exact Nat.le_succ _
  parent hSize := by rw [parent?_addFrame, if_neg (Nat.ne_of_lt hSize)]
  binds := by
    intro g name hBinds
    have hOld : g ≠ s.frames.size := by
      rintro rfl
      rw [bindings_of_size_le (Nat.le_refl _)] at hBinds
      cases hBinds
    rwa [bindings_addFrame, if_neg hOld]

theorem addClosure (s : Store) (made : Nat) : s.Grows { s with closures := made } where
  size := Nat.le_refl _
  parent _ := rfl
  binds := id

/-- The chain of a frame is settled when the frame is made. -/
theorem chain_eq (hGrows : s.Grows t) (hSize : f < s.frames.size) : t.chain f = s.chain f := by
  induction f using Nat.strongRecOn with
  | _ f ih =>
    rw [chain, chain, if_pos hSize, if_pos (Nat.lt_of_lt_of_le hSize hGrows.size),
      hGrows.parent hSize]
    split
    · rename_i parent _
      split
      · rename_i hOlder
        rw [ih parent hOlder (Nat.lt_trans hOlder hSize)]
      · rfl
    · rfl

/-- What can be looked up can always be looked up. -/
theorem lookup?_isSome (hGrows : s.Grows t) {name : String} (hFound : (s.lookup? f name).isSome) :
    (t.lookup? f name).isSome := by
  simp only [Store.lookup?, List.findSome?_isSome_iff] at hFound ⊢
  obtain ⟨g, hMem, hBinds⟩ := hFound
  have hSize : f < s.frames.size := by
    refine Nat.lt_of_not_le fun hNone => ?_
    rw [chain, if_neg (Nat.not_lt.2 hNone)] at hMem
    cases hMem
  exact ⟨g, hGrows.chain_eq hSize ▸ hMem, hGrows.binds hBinds⟩

end Grows

/-- What is visible from a frame is bound in one. -/
theorem holds_of_mem_visible {s : Store} {f : FrameId} {entry : String × Value} {p : Procedure}
    (hVisible : entry ∈ (s.visible f).entries) (hMem : p ∈ entry.2.procedures) : s.Holds p := by
  have hFound : (s.visible f).find? entry.1 = some entry.2 := Bindings.find?_of_mem hVisible
  rw [visible] at hFound
  generalize s.chain f = chain at hFound
  induction chain with
  | nil => cases hFound
  | cons g rest ih =>
    rcases Bindings.mem_of_find?_insertAll hFound with hHere | hOuter
    · exact ⟨g, entry.1, entry.2, Bindings.find?_of_mem hHere, hMem⟩
    · exact ih hOuter

end Store

end EmbeddedLisp
