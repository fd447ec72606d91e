import EmbeddedLisp.Proofs.Number.Order
import EmbeddedLisp.Proofs.Procedure.Alike

/-! Equality of values. It compares what stands in the same places, so all that it is comes from the
places: from numbers, texts and booleans, from the names of native procedures and from the objects
that closures are. Floats make it partial, as what is not a number is equal to nothing, and make it
coarser than the text, as zero has two signs. -/
namespace EmbeddedLisp

namespace Procedure

variable {p q r : Procedure}

/-- A procedure is the same as itself. -/
theorem same_self (p : Procedure) : p.same p = true := by
  cases p <;> simp [same]

theorem same_symm (hSame : p.same q = true) : q.same p = true := by
  cases p <;> cases q <;> simp_all [same]

/-- Sameness of procedures leads from one to another: it is that of names or of numbers. -/
theorem same_trans (hFirst : p.same q = true) (hSecond : q.same r = true) : p.same r = true := by
  cases p <;> cases q <;> cases r <;> simp_all [same]

/-- What is written of procedures that are the same, and their shape. -/
theorem render_shape_of_same (hSame : p.same q = true) :
    (Value.procedure q).render = (Value.procedure p).render ∧
      (Value.procedure q).shape = (Value.procedure p).shape := by
  cases p <;> cases q <;> simp_all [same, Value.render, Value.shape]

end Procedure

/-- The kinds in a value, as they are nested. -/
inductive KindTree where
  | leaf (kind : Kind)
  | list (elements : List KindTree)

namespace Value

mutual

/-- The kind of a value, and for a list the kinds in its elements. -/
def kinds : Value → KindTree
  | .list elements => .list (kindsEach elements)
  | v => .leaf v.kind

def kindsEach : List Value → List KindTree
  | [] => []
  | v :: rest => v.kinds :: kindsEach rest

end

mutual

/-- The floats in a value, those in its elements among them. -/
def floats : Value → List Binary64
  | .float x => [x]
  | .list elements => floatsEach elements
  | _ => []

def floatsEach : List Value → List Binary64
  | [] => []
  | v :: rest => v.floats ++ floatsEach rest

end

mutual

/-- Values with the same in the same places. -/
inductive Equals : Value → Value → Prop where
  | integer (n : Fixnum) : Equals (.integer n) (.integer n)
  | float {x y : Binary64} (hEqual : x.numericallyEqual y = true) : Equals (.float x) (.float y)
  | text (contents : String) : Equals (.text contents) (.text contents)
  | boolean (b : Bool) : Equals (.boolean b) (.boolean b)
  | list {vs ws : List Value} (hEach : EqualsEach vs ws) : Equals (.list vs) (.list ws)
  | procedure {p q : Procedure} (hSame : p.same q = true) : Equals (.procedure p) (.procedure q)

/-- Elements that are equal one by one. -/
inductive EqualsEach : List Value → List Value → Prop where
  | nil : EqualsEach [] []
  | cons {v w : Value} {vs ws : List Value} (hFirst : Equals v w) (hRest : EqualsEach vs ws) :
      EqualsEach (v :: vs) (w :: ws)

end

mutual

/-- Equal values are found equal, by induction on why they are equal. -/
theorem Equals.equal : {v w : Value} → Equals v w → v.equal w = true
  | _, _, .integer _ | _, _, .text _ | _, _, .boolean _ => by simp [Value.equal]
  | _, _, .float hEqual => hEqual
  | _, _, .list hEach => hEach.equalEach
  | _, _, .procedure hSame => hSame

theorem EqualsEach.equalEach : {vs ws : List Value} → EqualsEach vs ws → equalEach vs ws = true
  | _, _, .nil => rfl
  | _, _, .cons hFirst
    hRest => by simp only [Value.equalEach, hFirst.equal, hRest.equalEach, Bool.and_self]

end

mutual

/-- What is found equal is equal, by induction over the first value. -/
theorem equals_of_equal : (v w : Value) → v.equal w = true → Equals v w
  | .integer a, w, hEqual => by
    cases w with
    | integer b =>
      cases of_decide_eq_true hEqual
      exact .integer a
    | _ => cases hEqual
  | .float x, w, hEqual => by
    cases w with
    | float y => exact .float hEqual
    | _ => cases hEqual
  | .text s, w, hEqual => by
    cases w with
    | text t =>
      cases of_decide_eq_true hEqual
      exact .text s
    | _ => cases hEqual
  | .boolean a, w, hEqual => by
    cases w with
    | boolean b =>
      cases of_decide_eq_true hEqual
      exact .boolean a
    | _ => cases hEqual
  | .list vs, w, hEqual => by
    cases w with
    | list ws => exact .list (equalsEach_of_equalEach vs ws hEqual)
    | _ => cases hEqual
  | .procedure p, w, hEqual => by
    cases w with
    | procedure q => exact .procedure hEqual
    | _ => cases hEqual

theorem equalsEach_of_equalEach : (vs ws : List Value) → equalEach vs ws = true → EqualsEach vs ws
  | [], ws, hEqual => by
    cases ws with
    | nil => exact .nil
    | cons => cases hEqual
  | v :: vs, ws, hEqual => by
    cases ws with
    | nil => cases hEqual
    | cons w ws =>
      rw [equalEach, Bool.and_eq_true] at hEqual
      exact .cons (equals_of_equal v w hEqual.1) (equalsEach_of_equalEach vs ws hEqual.2)

end

/-- The computation decides equality. -/
theorem equal_iff {v w : Value} : v.equal w = true ↔ Equals v w :=
  ⟨equals_of_equal v w, Equals.equal⟩

mutual

/-- Equality in every place can be turned around, -/
theorem Equals.symm : {v w : Value} → Equals v w → Equals w v
  | _, _, .integer n => .integer n
  | _, _, .float hEqual => .float (Binary64.numericallyEqual_symm hEqual)
  | _, _, .text contents => .text contents
  | _, _, .boolean b => .boolean b
  | _, _, .list hEach => .list hEach.symm
  | _, _, .procedure hSame => .procedure (Procedure.same_symm hSame)

theorem EqualsEach.symm : {vs ws : List Value} → EqualsEach vs ws → EqualsEach ws vs
  | _, _, .nil => .nil
  | _, _, .cons hFirst hRest => .cons hFirst.symm hRest.symm

end

mutual

/-- and put together. -/
theorem Equals.trans : {u v w : Value} → Equals u v → Equals v w → Equals u w
  | _, _, _, .integer _, hSecond => hSecond
  | _, _, _, .float hFirst, .float hSecond =>
    .float (Binary64.numericallyEqual_trans hFirst hSecond)
  | _, _, _, .text _, hSecond => hSecond
  | _, _, _, .boolean _, hSecond => hSecond
  | _, _, _, .list hFirst, .list hSecond => .list (hFirst.trans hSecond)
  | _, _, _, .procedure hFirst, .procedure hSecond =>
    .procedure (Procedure.same_trans hFirst hSecond)

theorem EqualsEach.trans :
    {us vs ws : List Value} → EqualsEach us vs → EqualsEach vs ws → EqualsEach us ws
  | _, _, _, .nil, .nil => .nil
  | _, _, _, .cons hFirst hRest, .cons hFirst' hRest' =>
    .cons (hFirst.trans hFirst') (hRest.trans hRest')

end

mutual

/-- A value is equal to itself unless something in it is not a number. -/
theorem equals_self_iff : (v : Value) → (Equals v v ↔ ∀ x ∈ v.floats, x.isNaN = false)
  | .integer n => ⟨fun _ => nofun, fun _ => .integer n⟩
  | .text contents => ⟨fun _ => nofun, fun _ => .text contents⟩
  | .boolean b => ⟨fun _ => nofun, fun _ => .boolean b⟩
  | .procedure p => ⟨fun _ => nofun, fun _ => .procedure p.same_self⟩
  | .float x => by
    rw [floats, List.forall_mem_singleton, ← Binary64.numericallyEqual_self_iff]
    constructor
    · intro hEquals
      cases hEquals with
      | float hEqual => exact hEqual
    · exact .float
  | .list vs => by
    rw [floats, ← equalsEach_self_iff vs]
    constructor
    · intro hEquals
      cases hEquals with
      | list hEach => exact hEach
    · exact .list

theorem equalsEach_self_iff :
    (vs : List Value) → (EqualsEach vs vs ↔ ∀ x ∈ floatsEach vs, x.isNaN = false)
  | [] => ⟨fun _ => nofun, fun _ => .nil⟩
  | v :: vs => by
    rw [floatsEach, List.forall_mem_append, ← equals_self_iff v, ← equalsEach_self_iff vs]
    constructor
    · intro hEquals
      cases hEquals with
      | cons hFirst hRest => exact ⟨hFirst, hRest⟩
    · intro hBoth
      obtain ⟨hFirst, hRest⟩ := hBoth
      exact .cons hFirst hRest

end

mutual

/-- Equality keeps kinds apart, in all places. -/
theorem Equals.kinds_shape : {v w : Value} → Equals v w → w.kinds = v.kinds ∧ w.shape = v.shape
  | _, _, .integer _ | _, _, .float _ | _, _, .text _ | _, _, .boolean _ => ⟨rfl, rfl⟩
  | _, _, .list hEach => by
    obtain ⟨hKinds, hShape⟩ := hEach.kinds_shape
    simp only [Value.kinds, Value.shape, hKinds, hShape, and_self]
  | _, _, .procedure hSame => ⟨rfl, (Procedure.render_shape_of_same hSame).2⟩

theorem EqualsEach.kinds_shape : {vs ws : List Value} → EqualsEach vs ws →
    kindsEach ws = kindsEach vs ∧ shapeEach ws = shapeEach vs
  | _, _, .nil => ⟨rfl, rfl⟩
  | _, _, .cons hFirst hRest => by
    obtain ⟨hKinds, hShape⟩ := hFirst.kinds_shape
    obtain ⟨hKindsEach, hShapeEach⟩ := hRest.kinds_shape
    simp only [Value.kindsEach, Value.shapeEach, hKinds, hShape, hKindsEach, hShapeEach, and_self]

end

mutual

/-- Without a zero, whose sign may be another one, equal values differ in nothing but procedures. -/
theorem Equals.alike : {v w : Value} → Equals v w → (∀ x ∈ v.floats, x.isZero = false) →
    Alike (fun p q => p.same q = true) v w
  | _, _, .integer n, _ => .integer n
  | _, _, .float hEqual, hZero => by
    cases Binary64.eq_of_numericallyEqual hEqual (hZero _ (List.mem_singleton_self _))
    exact .float _
  | _, _, .text contents, _ => .text contents
  | _, _, .boolean b, _ => .boolean b
  | _, _, .list hEach, hZero => .list (hEach.alikeEach hZero)
  | _, _, .procedure hSame, _ => .procedure hSame

theorem EqualsEach.alikeEach :
    {vs ws : List Value} → EqualsEach vs ws → (∀ x ∈ floatsEach vs, x.isZero = false) →
    AlikeEach (fun p q => p.same q = true) vs ws
  | _, _, .nil, _ => .nil
  | _, _, .cons hFirst hRest, hZero =>
    .cons (hFirst.alike fun x hMem => hZero x (List.mem_append_left _ hMem))
      (hRest.alikeEach fun x hMem => hZero x (List.mem_append_right _ hMem))

end

/-- Equal values without a zero are written in the same way. -/
theorem Equals.render_eq {v w : Value} (hEquals : Equals v w)
    (hZero : ∀ x ∈ v.floats, x.isZero = false) :
    w.render = v.render := by
  have hRelated := (hEquals.alike hZero).render_shape fun _ _ => Procedure.render_shape_of_same
  exact hRelated.1

end Value

end EmbeddedLisp
