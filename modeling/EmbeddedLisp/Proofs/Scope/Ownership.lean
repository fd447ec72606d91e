import EmbeddedLisp.Proofs.Evaluation.Levels
import EmbeddedLisp.Proofs.Scope.Growth
import EmbeddedLisp.Proofs.Scope.Walks

/-! Who owns a name. The owner of a name, as seen from a frame, is the first frame on the way up
that binds it. What is looked up is what the owner binds the name to, and what is assigned is bound
there. So a write is seen from exactly those frames that have the same owner for the name, whichever
frame it was made from and however their chains run together. -/
namespace EmbeddedLisp

open EmbeddedLisp.Action

namespace Bindings

variable {α : Type}

/-- A name that is bound already keeps its place. -/
theorem names_insert {b : Bindings α} {name : String} (hBinds : b.binds name) (a : α) :
    (b.insert name a).names = b.names := by
  obtain ⟨entries, increasing⟩ := b
  simp only [names, insert]
  induction entries with
  | nil => cases hBinds
  | cons entry rest ih =>
    obtain ⟨hFirst, hRest⟩ := List.pairwise_cons.1 increasing
    by_cases hHere : entry.1 = name
    · subst hHere
      rw [put, if_neg (String.lt_irrefl _), if_pos rfl]
      rfl
    · have hLater : (⟨rest, hRest⟩ : Bindings α).binds name := by
        simpa [binds, find?, hHere] using hBinds
      obtain ⟨a', hFound⟩ := Option.isSome_iff_exists.1 hLater
      obtain ⟨other, hOther, -⟩ := Option.map_eq_some_iff.1 hFound
      have hLess : entry.1 < name := by
        have hName : other.1 = name := by simpa using List.find?_some hOther
        exact hName ▸ hFirst other (List.mem_of_find?_eq_some hOther)
      have hNotLess : ¬name < entry.1 :=
        fun hGreater => String.lt_irrefl _ (String.lt_trans hLess hGreater)
      rw [put, if_neg hNotLess, if_neg (Ne.symm hHere), List.map_cons, List.map_cons,
        ih hRest hLater]

end Bindings

namespace Store

/-- Whether a frame is the first one to bind a name, on the way up from another frame. -/
inductive Owns (s : Store) (name : String) : (f owner : FrameId) → Prop where
  | here {f : FrameId} (hBinds : (s.bindings f).binds name) : Owns s name f f
  | above {f parent owner : FrameId} (hNot : ¬(s.bindings f).binds name) (hUnder : s.Under f parent)
      (hOwns : Owns s name parent owner) : Owns s name f owner

variable {s : Store} {f g owner : FrameId} {name : String}

/-- The owner of a binding is the frame itself or, if it does not bind the name, that of its
parent. -/
theorem owner?_of_under (h : s.Ordered) (hUnder : s.Under f g) (name : String) :
    s.owner? f name = if (s.bindings f).binds name then some f else s.owner? g name := by
  rw [owner?, h.chain_of_under hUnder, List.find?_cons, owner?]
  cases (s.bindings f).binds name <;> rfl

theorem owner?_of_root (hRoot : s.parent? f = none) (name : String) :
    s.owner? f name = if (s.bindings f).binds name then some f else none := by
  rw [owner?, chain_of_root hRoot]
  split
  · rw [List.find?_singleton]
  · rename_i hNone
    rw [bindings_of_size_le (Nat.not_lt.1 hNone)]
    rfl

/-- The frame that is found is the nearest one that binds the name, by induction along the
parents. -/
theorem owner?_eq_some_iff (h : s.Ordered) :
    s.owner? f name = some owner ↔ s.Owns name f owner := by
  constructor
  · intro hFound
    induction f using Nat.strongRecOn with
    | _ f ih =>
      by_cases hBinds : (s.bindings f).binds name
      · have hHere : s.owner? f name = some f := by
          cases hParent : s.parent? f with
          | none => rw [owner?_of_root hParent, if_pos hBinds]
          | some g => rw [owner?_of_under h hParent, if_pos hBinds]
        cases hHere.symm.trans hFound
        exact .here hBinds
      · cases hParent : s.parent? f with
        | none =>
          rw [owner?_of_root hParent, if_neg hBinds] at hFound
          cases hFound
        | some g =>
          rw [owner?_of_under h hParent, if_neg hBinds] at hFound
          exact .above hBinds hParent (ih g (h hParent) hFound)
  · intro hOwns
    induction hOwns with
    | @here f hBinds =>
      cases hParent : s.parent? f with
      | none => rw [owner?_of_root hParent, if_pos hBinds]
      | some g => rw [owner?_of_under h hParent, if_pos hBinds]
    | above hNot hUnder _ ih => rw [owner?_of_under h hUnder, if_neg hNot, ih]

theorem owner?_binds (hOwner : s.owner? f name = some owner) : (s.bindings owner).binds name := by
  simpa using List.find?_some hOwner

/-- What is looked up is what the owner binds the name to. -/
theorem lookup?_eq_bind_owner? (s : Store) (f : FrameId) (name : String) :
    s.lookup? f name = (s.owner? f name).bind fun owner => (s.bindings owner).find? name := by
  rw [lookup?, owner?]
  induction s.chain f with
  | nil => rfl
  | cons g rest ih =>
    rw [List.findSome?_cons, List.find?_cons, Bindings.binds]
    cases hFound : (s.bindings g).find? name with
    | none => exact ih
    | some v => simp [hFound]

theorem lookup?_eq_none_iff : s.lookup? f name = none ↔ s.owner? f name = none := by
  rw [lookup?_eq_bind_owner?]
  cases hOwner : s.owner? f name with
  | none => simp
  | some owner => simpa [Bindings.binds, Option.isSome_iff_ne_none] using owner?_binds hOwner

/-- There is no binding to change exactly if no frame of the chain binds the name. -/
theorem owner?_eq_none_iff : s.owner? f name = none ↔ ∀ g ∈ s.chain f, ¬(s.bindings g).binds name :=
  List.find?_eq_none

theorem binds_define (s : Store) (f : FrameId) (name : String) (v : Value) (g : FrameId)
    (sought : String) :
    ((s.define f name v).bindings g).binds sought =
      (decide (f < s.frames.size ∧ f = g ∧ name = sought) || (s.bindings g).binds sought) := by
  simp only [Bindings.binds, find?_define]
  by_cases hWritten : f < s.frames.size ∧ f = g ∧ name = sought
  · simp only [if_pos hWritten, decide_eq_true hWritten, Option.isSome_some, Bool.true_or]
  · simp only [if_neg hWritten, decide_eq_false hWritten, Bool.false_or]

theorem chain_define (s : Store) (f : FrameId) (name : String) (v : Value) (g : FrameId) :
    (s.define f name v).chain g = s.chain g :=
  chain_congr (size_define s f name v) (parent?_define s f name v) g

/-- Writing a name in a frame makes a difference to no owner, unless that frame is the owner
then. -/
theorem owner?_define_of_ne (s : Store) (v : Value) {sought : String}
    (hOther : ¬(sought = name ∧ (s.define f name v).owner? g sought = some f)) :
    (s.define f name v).owner? g sought = s.owner? g sought := by
  simp only [owner?, chain_define] at hOther ⊢
  generalize s.chain g = chain at hOther ⊢
  induction chain with
  | nil => rfl
  | cons h rest ih =>
    rw [List.find?_cons] at hOther
    rw [List.find?_cons, List.find?_cons]
    cases hAfter : ((s.define f name v).bindings h).binds sought with
    | true =>
      rw [hAfter] at hOther
      rw [binds_define] at hAfter
      have hBefore : (s.bindings h).binds sought := by
        refine (Bool.or_eq_true_iff.1 hAfter).resolve_left fun hWritten => hOther ?_
        obtain ⟨-, rfl, rfl⟩ := of_decide_eq_true hWritten
        exact ⟨rfl, rfl⟩
      rw [hBefore]
    | false =>
      rw [hAfter] at hOther
      rw [binds_define, Bool.or_eq_false_iff] at hAfter
      rw [hAfter.2]
      exact ih hOther

/-- What can be looked up after a frame has been written to. -/
theorem lookup?_define (s : Store) (f : FrameId) (name : String) (v : Value) (g : FrameId)
    (sought : String) :
    (s.define f name v).lookup? g sought =
      if sought = name ∧ (s.define f name v).owner? g name = some f then some v
      else s.lookup? g sought := by
  rw [lookup?_eq_bind_owner?]
  split
  · rename_i hWritten
    obtain ⟨rfl, hOwner⟩ := hWritten
    have hSize : f < s.frames.size := by
      refine Nat.lt_of_not_le fun hNone => ?_
      have hBinds := owner?_binds hOwner
      rw [bindings_of_size_le ((size_define s f sought v).symm ▸ hNone)] at hBinds
      cases hBinds
    rw [hOwner, Option.bind_some, find?_define, if_pos ⟨hSize, rfl, rfl⟩]
  · rename_i hUnseen
    have hOther : ¬(sought = name ∧ (s.define f name v).owner? g sought = some f) := by
      rintro ⟨rfl, hOwner⟩
      exact hUnseen ⟨rfl, hOwner⟩
    have hSame := owner?_define_of_ne s v hOther
    rw [hSame] at hOther ⊢
    rw [lookup?_eq_bind_owner?]
    cases hOwner : s.owner? g sought with
    | none => rfl
    | some owner =>
      have hUnwritten : ¬(f < s.frames.size ∧ f = owner ∧ name = sought) := by
        rintro ⟨-, rfl, rfl⟩
        exact hOther ⟨rfl, hOwner⟩
      rw [Option.bind_some, Option.bind_some, find?_define, if_neg hUnwritten]

/-- Writing to the owner of a name changes no owner. -/
theorem owner?_assign (hOwner : s.owner? f name = some owner) (v : Value) (g : FrameId)
    (sought : String) :
    (s.define owner name v).owner? g sought = s.owner? g sought := by
  have hBinds (h : FrameId) :
      ((s.define owner name v).bindings h).binds sought = (s.bindings h).binds sought := by
    rw [binds_define]
    by_cases hWritten : owner < s.frames.size ∧ owner = h ∧ name = sought
    · obtain ⟨-, rfl, rfl⟩ := hWritten
      rw [owner?_binds hOwner, Bool.or_true]
    · rw [decide_eq_false hWritten, Bool.false_or]
  simp only [owner?, chain_define, hBinds]

/-- An assignment binds no new name in any frame. -/
theorem names_assign (hOwner : s.owner? f name = some owner) (v : Value) (g : FrameId) :
    ((s.define owner name v).bindings g).names = (s.bindings g).names := by
  by_cases hSize : owner < s.frames.size
  · rw [bindings_define s hSize]
    split
    · rename_i hSame
      rw [← hSame, Bindings.names_insert (owner?_binds hOwner)]
    · rfl
  · rw [define_of_size_le (Nat.not_lt.1 hSize)]

end Store

theorem Action.result_lookup (f : FrameId) (name : String) (m : Machine) :
    Outcome.result (lookup f name m) =
      match m.store.lookup? f name with
      | some v => .ok v
      | none => .error (.error (.unbound name)) := by
  rw [lookup_apply]
  cases m.store.lookup? f name <;> rfl

/-- An assignment writes to the owner, and fails as looking up does where there is none. -/
theorem Action.assign_cases (f : FrameId) (name : String) (v : Value) (m : Machine) :
    (m.store.owner? f name = none ∧ assign f name v m = .error (.error (.unbound name)) m ∧
        lookup f name m = .error (.error (.unbound name)) m) ∨
      ∃ owner u, m.store.owner? f name = some owner ∧ assign f name v m = define owner name v m ∧
        lookup f name m = .ok u m := by
  rw [assign_apply, lookup_apply, Store.lookup?_eq_bind_owner?]
  cases hOwner : m.store.owner? f name with
  | none => exact .inl ⟨rfl, rfl, rfl⟩
  | some owner =>
    obtain ⟨u, hFound⟩ := Option.isSome_iff_exists.1 (Store.owner?_binds hOwner)
    refine .inr ⟨owner, u, rfl, rfl, ?_⟩
    rw [Option.bind_some, hFound]

open Classical in
/-- The laws of frames that are shared. A name can be assigned to exactly where it can be looked up,
and where it cannot, it is reported as unbound and nothing has changed. After an assignment the new
value is seen from exactly those frames that have the same owner for the name as the frame that was
assigned from; everything else can be looked up as before, and all frames bind the names that they
did. A definition makes its frame own the name, and then the new value is seen from exactly those
frames for which that frame is the owner. -/
theorem shared_frames (m : Machine) (hOrdered : m.store.Ordered) (f : FrameId) (name : String)
    (v : Value) :
    ((∃ after, assign f name v m = .ok () after) ↔ ∃ u, lookup f name m = .ok u m) ∧
    ((¬∃ after, assign f name v m = .ok () after) →
      assign f name v m = .error (.error (.unbound name)) m ∧
        lookup f name m = .error (.error (.unbound name)) m) ∧
    (∀ after, assign f name v m = .ok () after →
      (∀ g sought, Outcome.result (lookup g sought after) =
        if sought = name ∧ ∃ owner, m.store.Owns name f owner ∧ m.store.Owns name g owner then .ok v
        else Outcome.result (lookup g sought m)) ∧
      ∀ g, (after.store.bindings g).names = (m.store.bindings g).names) ∧
    ∃ after, define f name v m = .ok () after ∧
      (f < m.store.frames.size → after.store.Owns name f f) ∧
      ∀ g sought, Outcome.result (lookup g sought after) =
        if sought = name ∧ after.store.Owns name g f then .ok v
        else Outcome.result (lookup g sought m) := by
  have hDefine (h : FrameId) (after : Machine) (hAfter : define h name v m = .ok () after)
      (g : FrameId) (sought : String) :
      Outcome.result (lookup g sought after) =
        if sought = name ∧ after.store.Owns name g h then .ok v
        else Outcome.result (lookup g sought m) := by
    cases hAfter
    simp only [← Store.owner?_eq_some_iff (hOrdered.define h name v), result_lookup,
      Store.lookup?_define]
    by_cases hSeen : sought = name ∧ (m.store.define h name v).owner? g name = some h
    · simp only [if_pos hSeen]
    · simp only [if_neg hSeen]
  have hOwns (hSize : f < m.store.frames.size) : (m.store.define f name v).Owns name f f := by
    apply Store.Owns.here
    simp [Store.binds_define, hSize]
  refine ⟨?_, fun hNot => ?_, fun after hAssign => ?_, _, rfl, hOwns, hDefine f _ rfl⟩
  · rcases assign_cases f name v m with ⟨-, hAssign, hLookup⟩ | ⟨owner, u, -, hAssign, hLookup⟩
    · rw [hAssign, hLookup]
      exact ⟨nofun, nofun⟩
    · rw [hAssign, hLookup]
      exact ⟨fun _ => ⟨u, rfl⟩, fun _ => ⟨_, rfl⟩⟩
  · rcases assign_cases f name v m with ⟨-, hAssign, hLookup⟩ | ⟨owner, u, -, hAssign, -⟩
    · exact ⟨hAssign, hLookup⟩
    · exact absurd ⟨_, hAssign⟩ hNot
  · rcases assign_cases f name v m with ⟨-, hFails, -⟩ | ⟨owner, u, hOwner, hWrites, -⟩
    · rw [hFails] at hAssign
      cases hAssign
    · rw [hWrites] at hAssign
      have hLookup := hDefine owner after hAssign
      cases hAssign
      refine ⟨fun g sought => ?_, Store.names_assign hOwner v⟩
      have hShared : (m.store.define owner name v).Owns name g owner ↔
          ∃ owner, m.store.Owns name f owner ∧ m.store.Owns name g owner := by
        simp only [← Store.owner?_eq_some_iff (hOrdered.define owner name v),
          ← Store.owner?_eq_some_iff hOrdered, Store.owner?_assign hOwner, hOwner,
          Option.some.injEq,
          exists_eq_left']
      simp only [hLookup, hShared]

/-- An assignment from a frame whose parent hides a binding of the root, and a frame beside that
parent. -/
theorem shared_frames_hidden :
    let m : Machine :=
      ⟨⟨#[⟨.ofList [("x", .integer 0)], none⟩, ⟨.ofList [("x", .integer 1)], some 0⟩,
      ⟨.empty, some 1⟩, ⟨.empty, some 0⟩], 0⟩, []⟩
    let after : Machine := ⟨m.store.define 1 "x" (.boolean true), []⟩
    m.store.Ordered ∧ assign 2 "x" (.boolean true) m = .ok () after ∧
      Outcome.result (lookup 1 "x" after) = .ok (.boolean true) ∧
      Outcome.result (lookup 3 "x" after) = Outcome.result (lookup 3 "x" m) := by
  intro m after
  have hOrdered : m.store.Ordered := by
    intro f g hUnder
    match f with
    | 0 => cases hUnder
    | 1 | 2 | 3 =>
      cases hUnder
      decide
    | f + 4 => cases hUnder
  have hHiding : m.store.Owns "x" 1 1 := .here rfl
  have hBelow : m.store.Owns "x" 2 1 := .above nofun rfl hHiding
  have hBeside : m.store.Owns "x" 3 0 := .above nofun rfl (.here rfl)
  have hAssign : assign 2 "x" (.boolean true) m = .ok () after := by
    rw [assign_apply, (Store.owner?_eq_some_iff hOrdered).2 hBelow]
    rfl
  have hApart : ¬∃ owner, m.store.Owns "x" 2 owner ∧ m.store.Owns "x" 3 owner := by
    rintro ⟨owner, hLeft, hRight⟩
    rw [← Store.owner?_eq_some_iff hOrdered] at hBelow hBeside hLeft hRight
    rw [hBelow] at hLeft
    rw [hBeside] at hRight
    cases hLeft
    cases hRight
  have hSeen := ((shared_frames m hOrdered 2 "x" (.boolean true)).2.2.1 after hAssign).1
  refine ⟨hOrdered, hAssign, ?_, ?_⟩
  · rw [hSeen, if_pos ⟨rfl, 1, hBelow, hHiding⟩]
  · rw [hSeen, if_neg fun h => hApart h.2]

end EmbeddedLisp
