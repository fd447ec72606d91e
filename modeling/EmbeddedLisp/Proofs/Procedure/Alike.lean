import EmbeddedLisp.Proofs.Scope.Contents
import Mathlib.Data.List.Forall2

/-! Values that are alike except for the procedures in them. Whatever is required of the procedures
that stand in the same places, such values have the same kind, are equally true and have the same
form. -/
namespace EmbeddedLisp

mutual

/-- Values that differ in nothing but procedures, which are related. -/
inductive Alike (R : Procedure → Procedure → Prop) : Value → Value → Prop where
  | integer (n : Fixnum) : Alike R (.integer n) (.integer n)
  | float (x : Binary64) : Alike R (.float x) (.float x)
  | text (contents : String) : Alike R (.text contents) (.text contents)
  | boolean (b : Bool) : Alike R (.boolean b) (.boolean b)
  | list {vs vs' : List Value} (hEach : AlikeEach R vs vs') : Alike R (.list vs) (.list vs')
  | procedure {p q : Procedure} (hRelated : R p q) : Alike R (.procedure p) (.procedure q)

/-- Values that are alike one by one. -/
inductive AlikeEach (R : Procedure → Procedure → Prop) : List Value → List Value → Prop where
  | nil : AlikeEach R [] []
  | cons {v v' : Value} {vs vs' : List Value} (hFirst : Alike R v v') (hRest : AlikeEach R vs vs') :
      AlikeEach R (v :: vs) (v' :: vs')

end

section

variable {R : Procedure → Procedure → Prop}

/-- Alike one by one is the relation of lists that the library has. -/
theorem alikeEach_iff {vs vs' : List Value} :
    AlikeEach R vs vs' ↔ List.Forall₂ (Alike R) vs vs' := by
  induction vs generalizing vs' with
  | nil =>
    constructor
    · rintro ⟨⟩
      exact .nil
    · rintro ⟨⟩
      exact .nil
  | cons v rest ih =>
    constructor
    · rintro ⟨⟩
      rename_i hFirst hRest
      exact .cons hFirst (ih.1 hRest)
    · rintro ⟨⟩
      rename_i hFirst hRest
      exact .cons hFirst (ih.2 hRest)

/-- Values that are alike are of one kind, so that a conversion takes both or neither. -/
theorem Alike.kind_eq {v v' : Value} (hAlike : Alike R v v') : v'.kind = v.kind := by
  cases hAlike <;> rfl

/-- A condition goes the same way for values that are alike. -/
theorem Alike.isTrue_eq {v v' : Value} (hAlike : Alike R v v') : v'.isTrue = v.isTrue := by
  cases hAlike <;> rfl

theorem Alike.isNil_eq {v v' : Value} (hAlike : Alike R v v') : v'.isNil = v.isNil := by
  cases hAlike with
  | list hEach => cases hEach <;> rfl
  | _ => rfl

mutual

/-- Values stay alike for a wider relation of procedures. The induction is on the first value. -/
theorem Alike.imp {Q : Procedure → Procedure → Prop} (hImp : ∀ p q, R p q → Q p q) :
    {v v' : Value} → Alike R v v' → Alike Q v v'
  | _, _, .integer n => .integer n
  | _, _, .float x => .float x
  | _, _, .text contents => .text contents
  | _, _, .boolean b => .boolean b
  | _, _, .list hEach => .list (hEach.imp hImp)
  | _, _, .procedure hRelated => .procedure (hImp _ _ hRelated)

theorem AlikeEach.imp {Q : Procedure → Procedure → Prop} (hImp : ∀ p q, R p q → Q p q) :
    {vs vs' : List Value} → AlikeEach R vs vs' → AlikeEach Q vs vs'
  | _, _, .nil => .nil
  | _, _, .cons hFirst hRest => .cons (hFirst.imp hImp) (hRest.imp hImp)

end

mutual

/-- Values are written in the same way if their procedures are. -/
theorem Alike.render_shape (hSame : ∀ p q, R p q →
      (Value.procedure q).render = (Value.procedure p).render ∧
        (Value.procedure q).shape = (Value.procedure p).shape) :
    {v v' : Value} → Alike R v v' → v'.render = v.render ∧ v'.shape = v.shape
  | _, _, .integer _ | _, _, .float _ | _, _, .text _ | _, _, .boolean _ => ⟨rfl, rfl⟩
  | _, _, .list hEach => by
    obtain ⟨hRender, hShape⟩ := hEach.render_shape hSame
    simp only [Value.render, Value.shape, hRender, hShape, and_self]
  | _, _, .procedure hRelated => hSame _ _ hRelated

theorem AlikeEach.render_shape (hSame : ∀ p q, R p q →
      (Value.procedure q).render = (Value.procedure p).render ∧
        (Value.procedure q).shape = (Value.procedure p).shape) :
    {vs vs' : List Value} → AlikeEach R vs vs' →
      Value.renderEach vs' = Value.renderEach vs ∧ Value.shapeEach vs' = Value.shapeEach vs
  | _, _, .nil => ⟨rfl, rfl⟩
  | _, _, .cons hFirst hRest => by
    obtain ⟨hRender, hShape⟩ := hFirst.render_shape hSame
    obtain ⟨hRenderEach, hShapeEach⟩ := hRest.render_shape hSame
    simp only [Value.renderEach, Value.shapeEach, hRender, hShape, hRenderEach,
      hShapeEach, and_self]

end

mutual

/-- There are no procedures in data. -/
theorem alike_ofExpression : (e : Expression) → Alike R (.ofExpression e) (.ofExpression e)
  | .integer n => .integer n
  | .float x => .float x
  | .text token => .text token
  | .boolean b => .boolean b
  | .list es => .list (alikeEach_ofEach es)

theorem alikeEach_ofEach : (es : List Expression) → AlikeEach R (Value.ofEach es) (Value.ofEach es)
  | [] => .nil
  | e :: es => .cons (alike_ofExpression e) (alikeEach_ofEach es)

end

end

open Value (procedures proceduresEach)

variable {P : Procedure → Prop}

mutual

/-- A value that is alike itself, in that its procedures have a property. -/
theorem Alike.same : {v v' : Value} → Alike (fun p q => p = q ∧ P p) v v' →
    v = v' ∧ ∀ p ∈ v.procedures, P p
  | _, _, .integer _ | _, _, .float _ | _, _, .text _ | _, _, .boolean _ => ⟨rfl, nofun⟩
  | _, _, .list hEach => hEach.same.imp (congrArg Value.list) id
  | _, _, .procedure hRelated =>
    ⟨congrArg Value.procedure hRelated.1, fun _ hMem => List.mem_singleton.1 hMem ▸ hRelated.2⟩

theorem AlikeEach.same : {vs vs' : List Value} → AlikeEach (fun p q => p = q ∧ P p) vs vs' →
    vs = vs' ∧ ∀ p ∈ proceduresEach vs, P p
  | _, _, .nil => ⟨rfl, nofun⟩
  | _, _, .cons hFirst hRest =>
    ⟨congrArg₂ List.cons hFirst.same.1 hRest.same.1, fun p hMem =>
      (List.mem_append.1 hMem).elim (hFirst.same.2 p) (hRest.same.2 p)⟩

end

mutual

/-- A value is alike to itself where the procedures in it are. -/
theorem alike_of_procedures :
    (v : Value) → (∀ p ∈ v.procedures, P p) → Alike (fun p q => p = q ∧ P p) v v
  | .integer n, _ => .integer n
  | .float x, _ => .float x
  | .text contents, _ => .text contents
  | .boolean b, _ => .boolean b
  | .list vs, hEach => .list (alikeEach_of_procedures vs hEach)
  | .procedure p, hEach => .procedure ⟨rfl, hEach p (List.mem_singleton_self p)⟩

theorem alikeEach_of_procedures : (vs : List Value) → (∀ p ∈ proceduresEach vs, P p) →
    AlikeEach (fun p q => p = q ∧ P p) vs vs
  | [], _ => .nil
  | v :: vs, hEach =>
    .cons (alike_of_procedures v fun p hMem => hEach p (List.mem_append_left _ hMem))
      (alikeEach_of_procedures vs fun p hMem => hEach p (List.mem_append_right _ hMem))

end

/-- Alike by equality of procedures with a property: equal, and every procedure in it has it. -/
theorem alike_same_iff {v v' : Value} :
    Alike (fun p q => p = q ∧ P p) v v' ↔ v = v' ∧ ∀ p ∈ v.procedures, P p := by
  constructor
  · exact Alike.same
  · rintro ⟨rfl, hEach⟩
    exact alike_of_procedures v hEach

end EmbeddedLisp
