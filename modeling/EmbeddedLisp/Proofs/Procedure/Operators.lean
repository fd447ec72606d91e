import EmbeddedLisp.Proofs.Number.Order
import EmbeddedLisp.Proofs.Procedure.Acceptance
import EmbeddedLisp.Proofs.Text.ByteOrder
import Mathlib.Order.Defs.Unbundled

/-! The operators on two values. All of them read their operands in one way, so they take the same
pairs of values and reject the others in the same words. The comparisons find one order of the
operands, and differ only in what they accept of it. That the order of two values is the other way
round for the values the other way round is what the laws between the comparisons come from. -/
namespace EmbeddedLisp

namespace Value

/-- Values that the operators take together: numbers of any kinds, or texts. -/
def GoesWith (v w : Value) : Prop :=
  v.isNumeric = true ∧ w.isNumeric = true ∨ v.kind = .text ∧ w.kind = .text

def isNaN : Value → Bool
  | .float x => x.isNaN
  | _ => false

variable {v w : Value}

theorem exists_text (hText : v.kind = .text) : ∃ s, v = .text s := by
  cases v with
  | text s => exact ⟨s, rfl⟩
  | _ => cases hText

theorem isNaN_toValue (n : Number) : n.toValue.isNaN = n.toBinary64.isNaN := by
  cases n with
  | integer a => exact (Binary64.isNaN_ofInt a.toInt).symm
  | float x => rfl

end Value

namespace Operands

variable {v w : Value} {order : Option Ordering}

/-- Values that do not go together are refused by their kinds. -/
theorem ofValues_of_not_goesWith (hApart : ¬ v.GoesWith w) (operator : Builtin) :
    ofValues operator v w = .error (.cannotCombine operator v.kind w.kind) := by
  cases v <;> cases w <;>
    first
    | rfl
    | exact absurd (by simp [Value.GoesWith, Value.isNumeric, Value.kind]) hApart

/-- Every operator takes the values together, in this order. -/
def InOrder (v w : Value) (order : Option Ordering) : Prop :=
  ∀ operator, ∃ operands, ofValues operator v w = .ok operands ∧ operands.compare? = order

/-- Numbers stand to each other as they compare after coercion. -/
theorem inOrder_numbers (m n : Number) : InOrder m.toValue n.toValue (m.compare? n) := by
  intro operator
  cases m <;> cases n <;> exact ⟨_, rfl, rfl⟩

theorem inOrder_texts (s t : String) : InOrder (.text s) (.text t) (some (compare s t)) :=
  fun _ => ⟨.texts s t, rfl, rfl⟩

/-- Values that go together have an order, and the other one the other way round. Only what is not a
number has none. -/
theorem exists_inOrder (hTogether : v.GoesWith w) :
    ∃ order, InOrder v w order ∧ InOrder w v (order.map Ordering.swap) ∧
      (order = none → v.isNaN = true ∨ w.isNaN = true) := by
  rcases hTogether with ⟨hLeft, hRight⟩ | ⟨hLeft, hRight⟩
  · obtain ⟨m, rfl⟩ := Value.exists_number hLeft
    obtain ⟨n, rfl⟩ := Value.exists_number hRight
    refine ⟨m.compare? n, inOrder_numbers m n, ?_, ?_⟩
    · rw [← Number.compare?_swap]
      exact inOrder_numbers n m
    · rw [Value.isNaN_toValue, Value.isNaN_toValue]
      exact Number.isNaN_of_compare?_eq_none
  · obtain ⟨s, rfl⟩ := Value.exists_text hLeft
    obtain ⟨t, rfl⟩ := Value.exists_text hRight
    refine ⟨some (compare s t), inOrder_texts s t, ?_, nofun⟩
    have hSwap : compare t s = (compare s t).swap := Std.OrientedCmp.eq_swap
    rw [Option.map_some, ← hSwap]
    exact inOrder_texts t s

end Operands

namespace Builtin

def comparisons : List Builtin := [.equal, .less, .greater, .lessOrEqual, .greaterOrEqual]

def arithmetic : List Builtin := [.add, .subtract, .multiply, .divide]

/-- The orders that a comparison holds for. -/
def accepted : Builtin → List Ordering
  | .equal => [.eq]
  | .less => [.lt]
  | .greater => [.gt]
  | .lessOrEqual => [.lt, .eq]
  | .greaterOrEqual => [.gt, .eq]
  | _ => []

/-- A comparison that answers yes. -/
def Holds (operator : Builtin) (v w : Value) : Prop :=
  operator.operation.call [v, w] = .ok (.boolean true)

variable {operator : Builtin} {v w : Value} {order : Option Ordering}

/-- A comparison asks whether the order of its operands is among those it accepts. -/
theorem call_comparison (hOperator : operator ∈ comparisons) :
    operator.operation.call [v, w] = Comparison.holds operator operator.accepted v w := by
  simp only [comparisons, List.mem_cons, List.not_mem_nil, or_false] at hOperator
  rcases hOperator with rfl | rfl | rfl | rfl | rfl <;> rfl

/-- A comparison answers by the order of the values alone. -/
theorem call_of_inOrder (hOperator : operator ∈ comparisons) (hOrder : Operands.InOrder v w order) :
    operator.operation.call [v, w] = .ok (.boolean (order.any operator.accepted.contains)) := by
  obtain ⟨operands, hOperands, rfl⟩ := hOrder operator
  rw [call_comparison hOperator, Comparison.holds, hOperands]
  rfl

/-- Whether a comparison holds is a matter of the order of its operands. -/
theorem holds_iff (hOperator : operator ∈ comparisons) (hOrder : Operands.InOrder v w order) :
    operator.Holds v w ↔ order.any operator.accepted.contains = true := by
  rw [Holds, call_of_inOrder hOperator hOrder, Except.ok.injEq, Value.boolean.injEq]

/-- An arithmetic operator reads its operands first, and then has no complaint about their kinds. -/
theorem exists_run (hOperator : operator ∈ arithmetic) :
    ∃ run : Operands → Except Fault Value,
      (∀ v w, operator.operation.call [v, w] = (Operands.ofValues operator v w).bind run) ∧
      ∀ operands left right, run operands ≠ .error (.cannotCombine operator left right) := by
  have hRange (operation : Builtin) (result : Option Fixnum) (left right : Kind) :
      Arithmetic.inRange operation result ≠ .error (.cannotCombine operator left right) := by
    cases result <;> simp [Arithmetic.inRange]
  have hQuotient (a b : Fixnum) (left right : Kind) :
      (if b = 0 then throw .divisionByZero else Arithmetic.inRange .divide (a.quotient? b)) ≠
        .error (.cannotCombine operator left right) := by
    split
    · exact nofun
    · exact hRange _ _ _ _
  simp only [arithmetic, List.mem_cons, List.not_mem_nil, or_false] at hOperator
  rcases hOperator with rfl | rfl | rfl | rfl
  -- What each of them does with its operands is found by unfolding it. Integers need the facts
  -- above.
  all_goals
    refine ⟨_, fun _ _ => rfl, fun operands left right => ?_⟩
    cases operands with
    | integers a b =>
      first
      | exact hRange _ _ left right
      | exact hQuotient a b left right
    | floats x y => exact nofun
    | texts s t => exact nofun

/-- All nine operators refuse a mixture of text and number, and name both kinds. -/
theorem call_of_not_goesWith (hOperator : operator ∈ comparisons ++ arithmetic)
    (hApart : ¬ v.GoesWith w) :
    operator.operation.call [v, w] = .error (.cannotCombine operator v.kind w.kind) := by
  have hOperands := Operands.ofValues_of_not_goesWith hApart operator
  rcases List.mem_append.1 hOperator with hComparison | hArithmetic
  · rw [call_comparison hComparison, Comparison.holds, hOperands]
    rfl
  · obtain ⟨run, hRun, -⟩ := exists_run hArithmetic
    rw [hRun, hOperands]
    rfl

/-- The operands are taken exactly when they go together. -/
theorem goesWith_iff_ofValues :
    v.GoesWith w ↔ ∃ operands, Operands.ofValues operator v w = .ok operands := by
  constructor
  · intro hTogether
    obtain ⟨order, hOrder, -, -⟩ := Operands.exists_inOrder hTogether
    obtain ⟨operands, hOperands, -⟩ := hOrder operator
    exact ⟨operands, hOperands⟩
  · rintro ⟨operands, hOperands⟩
    by_contra hApart
    rw [Operands.ofValues_of_not_goesWith hApart] at hOperands
    cases hOperands

/-- Operands that go together may overflow or divide by zero, but are not refused as a mixture. -/
theorem call_ne_cannotCombine (hOperator : operator ∈ arithmetic) (hTogether : v.GoesWith w)
    (left right : Kind) :
    operator.operation.call [v, w] ≠ .error (.cannotCombine operator left right) := by
  obtain ⟨run, hRun, hAccepts⟩ := exists_run hOperator
  obtain ⟨operands, hOperands⟩ : ∃ operands, Operands.ofValues operator v w = .ok operands :=
    goesWith_iff_ofValues.1 hTogether
  rw [hRun, hOperands]
  exact hAccepts operands left right

theorem less_texts_iff {s t : String} : less.Holds (.text s) (.text t) ↔ s < t := by
  rw [holds_iff (by decide) (Operands.inOrder_texts s t), ← compare_lt_iff_lt]
  cases compare s t <;> decide

theorem less_integers_iff {a b : Fixnum} :
    less.Holds (.integer a) (.integer b) ↔ a.toInt < b.toInt := by
  have hOrder : Operands.InOrder (.integer a) (.integer b) (some (compare a.toInt b.toInt)) :=
    Operands.inOrder_numbers (.integer a) (.integer b)
  rw [holds_iff (by decide) hOrder, ← compare_lt_iff_lt]
  cases compare a.toInt b.toInt <;> decide

theorem fixnums_total : IsStrictTotalOrder Fixnum fun a b => a.toInt < b.toInt where
  trichotomous _ _ hLess hGreater :=
    Fixnum.eq_of_toInt_eq (Int.le_antisymm (Int.not_lt.1 hGreater) (Int.not_lt.1 hLess))
  irrefl a := Int.lt_irrefl a.toInt
  trans _ _ _ := Int.lt_trans

/-- Numbers are compared as floats unless both are integers, and what is not a number is never
less. -/
theorem less_floats_iff {m n : Number} (hFloat : m.isFloat = true ∨ n.isFloat = true) :
    less.Holds m.toValue n.toValue ↔ m.toBinary64.isNaN = false ∧ n.toBinary64.isNaN = false ∧
      m.toBinary64.units < n.toBinary64.units := by
  rw [holds_iff (by decide) (Operands.inOrder_numbers m n), Number.compare?_of_isFloat hFloat]
  cases hLeft : m.toBinary64.isNaN with
  | true => simp [Binary64.compare?_of_isNaN_left hLeft]
  | false =>
    cases hRight : n.toBinary64.isNaN with
    | true => simp [Binary64.compare?_of_isNaN_right _ hRight]
    | false =>
      rw [Binary64.compare?_eq hLeft hRight, ← compare_lt_iff_lt]
      cases compare m.toBinary64.units n.toBinary64.units <;> decide

end Builtin

open Builtin (Holds comparisons arithmetic less)

/-- What the operators agree on. -/
structure OperatorLaws : Prop where
  /-- The comparisons answer for the values that go together. -/
  answered (v w : Value) (hTogether : v.GoesWith w) : ∀ operator ∈ comparisons,
    ∃ answer, operator.operation.call [v, w] = .ok (.boolean answer)
  /-- All operators reject the others, and name both kinds. -/
  rejected (v w : Value) (hApart : ¬ v.GoesWith w) : ∀ operator ∈ comparisons ++ arithmetic,
    operator.operation.call [v, w] = .error (.cannotCombine operator v.kind w.kind)
  coerced (v w : Value) : ∀ operator ∈ arithmetic,
    (∃ operands, Operands.ofValues operator v w = .ok operands) ↔ v.GoesWith w
  /-- Arithmetic can still fail on values that go together, but not on account of their kinds. -/
  combined (v w : Value) (hTogether : v.GoesWith w) : ∀ operator ∈ arithmetic, ∀ left right,
    operator.operation.call [v, w] ≠ .error (.cannotCombine operator left right)
  joined (s t : String) : Builtin.add.operation.call [.text s, .text t] = .ok (.text (s ++ t))
  undefined (s t : String) : ∀ operator ∈ arithmetic, operator ≠ .add →
    operator.operation.call [.text s, .text t] = .error (.undefinedForText operator)
  greater_iff (v w : Value) (hTogether : v.GoesWith w) : Holds .greater v w ↔ Holds .less w v
  greaterOrEqual_iff (v w : Value) (hTogether : v.GoesWith w) :
    Holds .greaterOrEqual v w ↔ Holds .lessOrEqual w v
  lessOrEqual_iff (v w : Value) (hTogether : v.GoesWith w) :
    Holds .lessOrEqual v w ↔ Holds .less v w ∨ Holds .equal v w
  exclusive (v w : Value) (hTogether : v.GoesWith w) :
    [Builtin.less, .equal, .greater].Pairwise fun first second =>
    ¬ (first.Holds v w ∧ second.Holds v w)
  complete (v w : Value) (hTogether : v.GoesWith w) (hLeft : v.isNaN = false)
    (hRight : w.isNaN = false) :
    ∃ operator ∈ [Builtin.less, .equal, .greater], operator.Holds v w
  texts (s t : String) :
    (less.Holds (.text s) (.text t) ↔ Utf8.codePoints s < Utf8.codePoints t) ∧
      (less.Holds (.text s) (.text t) ↔ Utf8.bytes s < Utf8.bytes t)
  texts_total : IsStrictTotalOrder String fun s t => less.Holds (.text s) (.text t)
  integers (a b : Fixnum) : less.Holds (.integer a) (.integer b) ↔ a.toInt < b.toInt
  integers_total : IsStrictTotalOrder Fixnum fun a b => less.Holds (.integer a) (.integer b)
  /-- Other numbers are compared as floats, by their exact values. What is not a number is never
  less. -/
  floats (m n : Number) (hFloat : m.isFloat = true ∨ n.isFloat = true) :
    less.Holds m.toValue n.toValue ↔ m.toBinary64.isNaN = false ∧ n.toBinary64.isNaN = false ∧
      m.toBinary64.units < n.toBinary64.units

namespace Builtin

/-- The operators take the same operands, and what holds by one settles the others. -/
theorem operators_agree : OperatorLaws where
  answered v w hTogether operator hOperator := by
    obtain ⟨order, hOrder, -, -⟩ := Operands.exists_inOrder hTogether
    exact ⟨_, call_of_inOrder hOperator hOrder⟩
  rejected v w hApart operator hOperator := call_of_not_goesWith hOperator hApart
  coerced v w operator _ := goesWith_iff_ofValues.symm
  combined v w hTogether operator hOperator := call_ne_cannotCombine hOperator hTogether
  joined s t := rfl
  undefined s t operator hOperator hOther := by
    simp only [arithmetic, List.mem_cons, List.not_mem_nil, or_false] at hOperator
    rcases hOperator with rfl | rfl | rfl | rfl
    · exact absurd rfl hOther
    all_goals rfl
  greater_iff v w hTogether := by
    obtain ⟨order, hOrder, hSwapped, -⟩ := Operands.exists_inOrder hTogether
    rw [holds_iff (by decide) hOrder, holds_iff (by decide) hSwapped]
    rcases order with _ | _ | _ | _ <;> decide
  greaterOrEqual_iff v w hTogether := by
    obtain ⟨order, hOrder, hSwapped, -⟩ := Operands.exists_inOrder hTogether
    rw [holds_iff (by decide) hOrder, holds_iff (by decide) hSwapped]
    rcases order with _ | _ | _ | _ <;> decide
  lessOrEqual_iff v w hTogether := by
    obtain ⟨order, hOrder, -, -⟩ := Operands.exists_inOrder hTogether
    rw [holds_iff (by decide) hOrder, holds_iff (by decide) hOrder, holds_iff (by decide) hOrder]
    rcases order with _ | _ | _ | _ <;> decide
  exclusive v w hTogether := by
    obtain ⟨order, hOrder, -, -⟩ := Operands.exists_inOrder hTogether
    simp only [List.pairwise_cons, List.mem_cons, List.not_mem_nil, or_false,
      forall_eq_or_imp, forall_eq]
    rw [holds_iff (by decide) hOrder, holds_iff (by decide) hOrder, holds_iff (by decide) hOrder]
    rcases order with _ | _ | _ | _ <;> simp [accepted]
  complete v w hTogether hLeft hRight := by
    obtain ⟨order, hOrder, -, hNone⟩ := Operands.exists_inOrder hTogether
    cases order with
    | none => simp [hLeft, hRight] at hNone
    | some order =>
      cases order with
      | lt => exact ⟨.less, by decide, (holds_iff (by decide) hOrder).2 rfl⟩
      | eq => exact ⟨.equal, by decide, (holds_iff (by decide) hOrder).2 rfl⟩
      | gt => exact ⟨.greater, by decide, (holds_iff (by decide) hOrder).2 rfl⟩
  texts s t := by
    rw [less_texts_iff, Utf8.codePoints_lt_iff, Utf8.bytes_lt_iff]
    exact ⟨Iff.rfl, Iff.rfl⟩
  texts_total := by
    simp only [less_texts_iff]
    infer_instance
  integers a b := less_integers_iff
  integers_total := by
    simp only [less_integers_iff]
    exact fixnums_total
  floats m n hFloat := less_floats_iff hFloat

end Builtin

end EmbeddedLisp
