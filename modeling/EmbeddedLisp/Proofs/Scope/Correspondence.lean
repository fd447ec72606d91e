import EmbeddedLisp.Proofs.Procedure.Alike
import EmbeddedLisp.Proofs.Scope.Contents

/-! Stores that correspond. A link says which frames of two stores stand for each other. Linked
values differ in nothing but the frames of their closures, which are linked, and in the numbers that
closures were given when they were made. Stores mirror each other along a link if linked frames bind
linked values and have linked parents, so that names are looked up in step. -/
namespace EmbeddedLisp

/-- Which frames of two stores stand for each other. -/
abbrev Link := FrameId → FrameId → Prop

/-- Procedures that nothing tells apart from within the language. A procedure of the host is linked
with nothing, as it may depend on more than its arguments. -/
inductive LinkedProcedures (w : Link) : Procedure → Procedure → Prop where
  | builtin (procedure : Builtin) :
      LinkedProcedures w (.native (.builtin procedure)) (.native (.builtin procedure))
  | closure (id id' : Nat) (parameters : List String) (body : Expression) {f g : FrameId}
      (hFrames : w f g) :
      LinkedProcedures w (.closure ⟨id, parameters, body, f⟩) (.closure ⟨id', parameters, body, g⟩)

/-- Values that nothing tells apart from within the language. -/
abbrev Linked (w : Link) : Value → Value → Prop := Alike (LinkedProcedures w)

/-- Values stay linked when more frames are linked. -/
theorem Linked.mono {w w' : Link} (hExtends : ∀ f g, w f g → w' f g) {v v' : Value}
    (hValues : Linked w v v') : Linked w' v v' := by
  refine Alike.imp (fun p q hProcedures => ?_) hValues
  cases hProcedures with
  | builtin procedure => exact .builtin procedure
  | closure id id' parameters body hFrames =>
    exact .closure id id' parameters body (hExtends _ _ hFrames)

/-- What is written of a value does not show the frames of closures. -/
theorem Linked.render_shape {w : Link} {v v' : Value} (hValues : Linked w v v') :
    v'.render = v.render ∧ v'.shape = v.shape := by
  refine Alike.render_shape (fun p q hProcedures => ?_) hValues
  cases hProcedures <;> exact ⟨rfl, rfl⟩

theorem optionRel_imp {α β : Type} {R Q : α → β → Prop} (hImp : ∀ a b, R a b → Q a b) :
    {x : Option α} → {y : Option β} → Option.Rel R x y → Option.Rel Q x y
  | _, _, .none => .none
  | _, _, .some hRelated => .some (hImp _ _ hRelated)

/-- Bindings of the same names to related values. -/
def Bindings.Related {α β : Type} (R : α → β → Prop) (b : Bindings α) (b' : Bindings β) : Prop :=
  ∀ name, Option.Rel R (b.find? name) (b'.find? name)

namespace Bindings.Related

variable {α β : Type} {R : α → β → Prop} {b : Bindings α} {b' : Bindings β}

theorem empty : Related R .empty .empty := fun _ => .none

/-- The same name is bound on both sides, to values that are related. -/
theorem insert (hBindings : Related R b b') (name : String) {x : α} {y : β} (hValues : R x y) :
    Related R (b.insert name x) (b'.insert name y) := by
  intro sought
  rw [Bindings.find?_insert, Bindings.find?_insert]
  split
  · exact .some hValues
  · exact hBindings sought

/-- Entries one after another, by induction on them. -/
theorem ofList {entries : List (String × α)} {entries' : List (String × β)}
    (hEntries : List.Forall₂ (fun x y => x.1 = y.1 ∧ R x.2 y.2) entries entries') :
    Related R (.ofList entries) (.ofList entries') := by
  have hAll {b : Bindings α} {b' : Bindings β} (hBindings : Related R b b') :
      Related R (b.insertAll entries) (b'.insertAll entries') := by
    induction hEntries generalizing b b' with
    | nil => exact hBindings
    | cons hEntry _ ih =>
      simp only [Bindings.insertAll, List.foldl_cons, ← hEntry.1]
      exact ih (hBindings.insert _ hEntry.2)
  exact hAll empty

/-- The same names are bound on both sides. -/
theorem binds_eq (hBindings : Related R b b') (name : String) : b'.binds name = b.binds name := by
  have hName := hBindings name
  unfold Bindings.binds
  generalize b.find? name = left at hName ⊢
  generalize b'.find? name = right at hName ⊢
  cases hName <;> rfl

end Bindings.Related

/-- Bindings of the same names to linked values. -/
def LinkedBindings (w : Link) (b b' : Bindings Value) : Prop :=
  ∀ name, Option.Rel (Linked w) (b.find? name) (b'.find? name)

namespace LinkedBindings

variable {w : Link} {b b' : Bindings Value}

theorem mono {w' : Link} (hExtends : ∀ f g, w f g → w' f g) (hBindings : LinkedBindings w b b') :
    LinkedBindings w' b b' :=
  fun name => optionRel_imp (fun _ _ hValues => hValues.mono hExtends) (hBindings name)

theorem insert (hBindings : LinkedBindings w b b') (name : String) {v v' : Value}
    (hValues : Linked w v v') : LinkedBindings w (b.insert name v) (b'.insert name v') :=
  Bindings.Related.insert hBindings name hValues

theorem ofList {entries entries' : List (String × Value)}
    (hEntries : List.Forall₂ (fun x y => x.1 = y.1 ∧ Linked w x.2 y.2) entries entries') :
    LinkedBindings w (.ofList entries) (.ofList entries') :=
  Bindings.Related.ofList hEntries

theorem binds_eq (hBindings : LinkedBindings w b b') (name : String) :
    b'.binds name = b.binds name :=
  Bindings.Related.binds_eq hBindings name

end LinkedBindings

/-- Stores in which linked frames bind linked values and have linked parents. No frame is linked
with two others, so that what is done to one frame is done to the one it is linked with, and to no
other. -/
structure Mirrors (w : Link) (s t : Store) : Prop where
  left_unique : ∀ {f f' g}, w f g → w f' g → f = f'
  right_unique : ∀ {f g g'}, w f g → w f g' → g = g'
  size : ∀ {f g}, w f g → f < s.frames.size ∧ g < t.frames.size
  bindings : ∀ {f g}, w f g → LinkedBindings w (s.bindings f) (t.bindings g)
  parent : ∀ {f g}, w f g → Option.Rel (fun p q => w p q ∧ p < f ∧ q < g)
    (s.parent? f) (t.parent? g)

/-- The link with one more pair of frames. -/
def Link.extend (w : Link) (f g : FrameId) : Link := fun a b => w a b ∨ a = f ∧ b = g

namespace Mirrors

variable {w : Link} {s t : Store} {f g : FrameId}

/-- Nothing is linked in stores that have nothing to do with each other. -/
theorem none (s t : Store) : Mirrors (fun _ _ => False) s t where
  left_unique hFrames := hFrames.elim
  right_unique hFrames := hFrames.elim
  size hFrames := hFrames.elim
  bindings hFrames := hFrames.elim
  parent hFrames := hFrames.elim

/-- The chains of linked frames are linked frame by frame. -/
theorem chain (hMirrors : Mirrors w s t) (hFrames : w f g) :
    List.Forall₂ w (s.chain f) (t.chain g) := by
  induction f using Nat.strongRecOn generalizing g with
  | _ f ih =>
    obtain ⟨hSize, hSize'⟩ := hMirrors.size hFrames
    have hParents := hMirrors.parent hFrames
    rw [Store.chain, Store.chain, if_pos hSize, if_pos hSize']
    generalize s.parent? f = left at hParents ⊢
    generalize t.parent? g = right at hParents ⊢
    cases hParents with
    | none => exact .cons hFrames .nil
    | some hParent =>
      obtain ⟨hLinked, hOlder, hOlder'⟩ := hParent
      simp only [hOlder, hOlder', if_true]
      exact .cons hFrames (ih _ hOlder hLinked)

/-- A lookup from linked frames finds linked values, or none on either side. -/
theorem lookup? (hMirrors : Mirrors w s t) (hFrames : w f g) (name : String) :
    Option.Rel (Linked w) (s.lookup? f name) (t.lookup? g name) := by
  have hChains := hMirrors.chain hFrames
  unfold Store.lookup?
  generalize s.chain f = fs at hChains ⊢
  generalize t.chain g = gs at hChains ⊢
  induction hChains with
  | nil => exact .none
  | cons hFirst _ ih =>
    simp only [List.findSome?_cons]
    have hValues := hMirrors.bindings hFirst name
    generalize Bindings.find? _ name = left at hValues ⊢
    generalize Bindings.find? _ name = right at hValues ⊢
    cases hValues with
    | none => exact ih
    | some hValues => exact .some hValues

/-- The bindings that an assignment changes are in linked frames. -/
theorem owner? (hMirrors : Mirrors w s t) (hFrames : w f g) (name : String) :
    Option.Rel w (s.owner? f name) (t.owner? g name) := by
  have hChains := hMirrors.chain hFrames
  unfold Store.owner?
  generalize s.chain f = fs at hChains ⊢
  generalize t.chain g = gs at hChains ⊢
  induction hChains with
  | nil => exact .none
  | cons hFirst _ ih =>
    simp only [List.find?_cons, (hMirrors.bindings hFirst).binds_eq name]
    split
    · exact .some hFirst
    · exact ih

/-- Binding a name in linked frames. -/
theorem define (hMirrors : Mirrors w s t) (hFrames : w f g) (name : String) {v v' : Value}
    (hValues : Linked w v v') : Mirrors w (s.define f name v) (t.define g name v') where
  left_unique := hMirrors.left_unique
  right_unique := hMirrors.right_unique
  size hLinked := by simpa using hMirrors.size hLinked
  bindings := by
    intro a b hLinked
    obtain ⟨hSize, hSize'⟩ := hMirrors.size hFrames
    rw [Store.bindings_define s hSize, Store.bindings_define t hSize']
    have hSame : f = a ↔ g = b :=
      ⟨fun h => hMirrors.right_unique hFrames (h ▸ hLinked),
        fun h => hMirrors.left_unique hFrames (h ▸ hLinked)⟩
    simp only [hSame]
    split
    · exact (hMirrors.bindings hFrames).insert name hValues
    · exact hMirrors.bindings hLinked
  parent hLinked := by simpa using hMirrors.parent hLinked

/-- Making a frame in each store, below linked frames or below none. -/
theorem addFrame (hMirrors : Mirrors w s t) {b b' : Bindings Value}
    (hBindings : LinkedBindings w b b') {p q : Option FrameId} (hParents : Option.Rel w p q) :
    Mirrors (w.extend s.frames.size t.frames.size) (s.addFrame b p).2 (t.addFrame b' q).2 where
  left_unique := by
    rintro f f' g (hLinked | ⟨rfl, rfl⟩) (hLinked' | ⟨rfl, hNew⟩)
    · exact hMirrors.left_unique hLinked hLinked'
    · exact absurd hNew (Nat.ne_of_lt (hMirrors.size hLinked).2)
    · exact absurd rfl (Nat.ne_of_lt (hMirrors.size hLinked').2)
    · rfl
  right_unique := by
    rintro f g g' (hLinked | ⟨rfl, rfl⟩) (hLinked' | ⟨hNew, rfl⟩)
    · exact hMirrors.right_unique hLinked hLinked'
    · exact absurd hNew (Nat.ne_of_lt (hMirrors.size hLinked).1)
    · exact absurd rfl (Nat.ne_of_lt (hMirrors.size hLinked').1)
    · rfl
  size := by
    rw [Store.size_addFrame, Store.size_addFrame]
    rintro f g (hLinked | ⟨rfl, rfl⟩)
    · exact (hMirrors.size hLinked).imp Nat.lt_succ_of_lt Nat.lt_succ_of_lt
    · exact ⟨Nat.lt_succ_self _, Nat.lt_succ_self _⟩
  bindings := by
    rintro f g (hLinked | ⟨rfl, rfl⟩)
    · obtain ⟨hSize, hSize'⟩ := hMirrors.size hLinked
      rw [Store.bindings_addFrame, Store.bindings_addFrame, if_neg (Nat.ne_of_lt hSize),
        if_neg (Nat.ne_of_lt hSize')]
      exact (hMirrors.bindings hLinked).mono fun _ _ => .inl
    · rw [Store.bindings_addFrame, Store.bindings_addFrame, if_pos rfl, if_pos rfl]
      exact hBindings.mono fun _ _ => .inl
  parent := by
    rintro f g (hLinked | ⟨rfl, rfl⟩)
    · obtain ⟨hSize, hSize'⟩ := hMirrors.size hLinked
      rw [Store.parent?_addFrame, Store.parent?_addFrame, if_neg (Nat.ne_of_lt hSize),
        if_neg (Nat.ne_of_lt hSize')]
      exact optionRel_imp (fun _ _ hParent => ⟨.inl hParent.1, hParent.2⟩) (hMirrors.parent hLinked)
    · rw [Store.parent?_addFrame, Store.parent?_addFrame, if_pos rfl, if_pos rfl]
      exact optionRel_imp (fun _ _ hParent => ⟨.inl hParent, hMirrors.size hParent⟩) hParents

/-- The numbers of closures do not matter. -/
theorem withClosures (hMirrors : Mirrors w s t) (made made' : Nat) :
    Mirrors w { s with closures := made } { t with closures := made' } where
  left_unique := hMirrors.left_unique
  right_unique := hMirrors.right_unique
  size := hMirrors.size
  bindings := hMirrors.bindings
  parent := hMirrors.parent

/-- Only the linked frames matter. -/
theorem of_kept (hMirrors : Mirrors w s t) {t' : Store}
    (hKept : ∀ {f g}, w f g → t'.frames[g]? = t.frames[g]?) : Mirrors w s t' where
  left_unique := hMirrors.left_unique
  right_unique := hMirrors.right_unique
  size := by
    intro f g hFrames
    obtain ⟨hSize, hSize'⟩ := hMirrors.size hFrames
    refine ⟨hSize, Nat.lt_of_not_le fun hNone => ?_⟩
    have hSame := hKept hFrames
    rw [Array.getElem?_eq_none hNone, Array.getElem?_eq_getElem hSize'] at hSame
    cases hSame
  bindings := by
    intro f g hFrames
    have hSame : t'.bindings g = t.bindings g := by simp only [Store.bindings, hKept hFrames]
    rw [hSame]
    exact hMirrors.bindings hFrames
  parent := by
    intro f g hFrames
    have hSame : t'.parent? g = t.parent? g := by simp only [Store.parent?, hKept hFrames]
    rw [hSame]
    exact hMirrors.parent hFrames

end Mirrors

/-- A store that differs from an earlier one in nothing but some frames of its own and in the frames
made since. The linked frames are among these. -/
structure Confined (base : Store) (own : FrameId → Prop) (w : Link) (t : Store) : Prop where
  size : base.frames.size ≤ t.frames.size
  within : ∀ {f g}, w f g → own g ∨ base.frames.size ≤ g
  kept : ∀ {g}, g < base.frames.size → ¬own g → t.frames[g]? = base.frames[g]?

namespace Confined

variable {base t : Store} {own : FrameId → Prop} {w : Link} {f g : FrameId}

/-- At the start nothing has been written to the second store. -/
theorem start (hWithin : ∀ {f g}, w f g → own g) : Confined base own w base where
  size := Nat.le_refl _
  within hFrames := .inl (hWithin hFrames)
  kept _ _ := rfl

theorem keptOutside (hConfined : Confined base own w t) : base.KeptOutside own t where
  size := hConfined.size
  kept := hConfined.kept

theorem define (hConfined : Confined base own w t) (hFrames : w f g) (name : String) (v : Value) :
    Confined base own w (t.define g name v) where
  size := (hConfined.keptOutside.define (hConfined.within hFrames) name v).size
  within := hConfined.within
  kept := (hConfined.keptOutside.define (hConfined.within hFrames) name v).kept

/-- A frame that has been made for the run belongs to it. -/
theorem addFrame (hConfined : Confined base own w t) (f : FrameId) (b : Bindings Value)
    (parent : Option FrameId) :
    Confined base own (w.extend f t.frames.size) (t.addFrame b parent).2 where
  size := (hConfined.keptOutside.addFrame b parent).size
  within := by
    rintro _ _ (hFrames | ⟨-, rfl⟩)
    · exact hConfined.within hFrames
    · exact .inr hConfined.size
  kept := (hConfined.keptOutside.addFrame b parent).kept

theorem withClosures (hConfined : Confined base own w t) (made : Nat) :
    Confined base own w { t with closures := made } where
  size := hConfined.size
  within := hConfined.within
  kept := hConfined.kept

end Confined

end EmbeddedLisp
