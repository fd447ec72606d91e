import EmbeddedLisp.Number
import EmbeddedLisp.Proofs.Number.Nearest

/-! The order of numbers. Floats are in the order of their exact values, with an infinity beyond all
that is finite and with both zeros in one place. What is not a number is in no order. Integers keep
their order where they are taken as floats, though two of them may come to one float. -/
namespace EmbeddedLisp

/-- An integer is nothing but its value, which is in range. -/
theorem Fixnum.eq_of_toInt_eq {a b : Fixnum} (hSame : a.toInt = b.toInt) : a = b := by
  cases a
  cases b
  cases hSame
  rfl

namespace Magnitude

variable {m n : Magnitude}

/-- Magnitudes are in the order of their ranks: the next rank has more units. -/
theorem units_lt_units_iff : m.units < n.units ↔ m.rank < n.rank := by
  refine ⟨fun hUnits => ?_, units_lt_units⟩
  by_contra hRank
  rcases Nat.lt_or_eq_of_le (Nat.not_lt.1 hRank) with hLess | hSame
  · exact Nat.lt_asymm hUnits (units_lt_units hLess)
  · exact Nat.ne_of_lt hUnits (congrArg units (Magnitude.ext hSame.symm))

theorem units_le_units (hRank : m.rank ≤ n.rank) : m.units ≤ n.units :=
  Nat.not_lt.1 fun hLess => Nat.not_lt.2 hRank (units_lt_units_iff.1 hLess)

theorem units_eq_zero_iff : m.units = 0 ↔ m.rank = 0 := by
  have hZero : zero.units = 0 := by decide
  have hOrder := @units_lt_units_iff zero m
  rw [hZero, show zero.rank = 0 from rfl] at hOrder
  omega

end Magnitude

/-- Two comparisons come to the same if they agree on less and on greater. -/
theorem compare_congr {i j k l : Int} (hLess : i < j ↔ k < l) (hGreater : j < i ↔ l < k) :
    compare i j = compare k l := by
  rcases Int.lt_trichotomy i j with hBelow | hSame | hAbove
  · rw [compare_lt_iff_lt.2 hBelow, compare_lt_iff_lt.2 (hLess.1 hBelow)]
  · rw [compare_eq_iff_eq.2 hSame, compare_eq_iff_eq.2 (by omega : k = l)]
  · rw [compare_gt_iff_gt.2 hAbove, compare_gt_iff_gt.2 (hGreater.1 hAbove)]

namespace Binary64

variable {x y z : Binary64}

/-- The place of a float among all floats is in the order of its value. Only the two zeros share a
place. -/
theorem place_lt_place_iff (s t : Bool) (m n : Magnitude) :
    place s m < place t n ↔ (signed s m).units < (signed t n).units := by
  have hLess := @Magnitude.units_lt_units_iff m n
  have hGreater := @Magnitude.units_lt_units_iff n m
  have hZero := @Magnitude.units_eq_zero_iff m
  have hZero' := @Magnitude.units_eq_zero_iff n
  cases s <;> cases t <;> simp only [place, units, if_true, Bool.false_eq_true, if_false] <;> omega

/-- The order of floats is that of their exact values. -/
theorem compare?_eq (hLeft : x.isNaN = false) (hRight : y.isNaN = false) :
    x.compare? y = some (compare x.units y.units) := by
  cases x with
  | nan s => cases hLeft
  | signed s m =>
    cases y with
    | nan t => cases hRight
    | signed t n =>
      exact congrArg some (compare_congr (place_lt_place_iff s t m n) (place_lt_place_iff t s n m))

/-- What is not a number compares with nothing, from either side. -/
theorem compare?_of_isNaN_left (hLeft : x.isNaN = true) (y : Binary64) : x.compare? y = none := by
  cases x with
  | nan s => rfl
  | signed s m => cases hLeft

theorem compare?_of_isNaN_right (x : Binary64) (hRight : y.isNaN = true) : x.compare? y = none := by
  cases y with
  | nan t => cases x <;> rfl
  | signed t n => cases hRight

/-- One exact value has one float, but zero has two. -/
theorem eq_or_isZero (hLeft : x.isNaN = false) (hRight : y.isNaN = false)
    (hUnits : x.units = y.units) :
    x = y ∨ x.isZero = true ∧ y.isZero = true := by
  cases x with
  | nan s => cases hLeft
  | signed s m =>
    cases y with
    | nan t => cases hRight
    | signed t n =>
      have hLess := @Magnitude.units_lt_units_iff m n
      have hGreater := @Magnitude.units_lt_units_iff n m
      have hZero := @Magnitude.units_eq_zero_iff m
      have hZero' := @Magnitude.units_eq_zero_iff n
      simp only [isZero, Magnitude.isZero, beq_iff_eq]
      by_cases hSign : s = t
      · subst hSign
        left
        have hRank : m.rank = n.rank := by
          cases s <;> simp only [units, if_true, Bool.false_eq_true, if_false] at hUnits <;> omega
        rw [Magnitude.ext hRank]
      · right
        cases s <;> cases t <;>
          simp only [units, if_true, Bool.false_eq_true, if_false, not_true] at hUnits hSign
            <;> omega

/-- The other way round the order is the reverse one, or there is none either. -/
theorem compare?_swap (x y : Binary64) : y.compare? x = (x.compare? y).map Ordering.swap := by
  cases hLeft : x.isNaN with
  | true => rw [compare?_of_isNaN_left hLeft, compare?_of_isNaN_right y hLeft]; rfl
  | false =>
    cases hRight : y.isNaN with
    | true => rw [compare?_of_isNaN_left hRight, compare?_of_isNaN_right x hRight]; rfl
    | false =>
      have hSwap : compare y.units x.units = (compare x.units y.units).swap :=
        Std.OrientedCmp.eq_swap
      rw [compare?_eq hLeft hRight, compare?_eq hRight hLeft, hSwap]
      rfl

/-- Floats are equal if they have the same exact value. -/
theorem numericallyEqual_iff :
    x.numericallyEqual y = true ↔ x.isNaN = false ∧ y.isNaN = false ∧ x.units = y.units := by
  rw [numericallyEqual]
  cases hLeft : x.isNaN with
  | true => simp [compare?_of_isNaN_left hLeft]
  | false =>
    cases hRight : y.isNaN with
    | true => simp [compare?_of_isNaN_right x hRight]
    | false => simp [compare?_eq hLeft hRight]

/-- Equality does not depend on the side. -/
theorem numericallyEqual_symm (hEqual : x.numericallyEqual y = true) :
    y.numericallyEqual x = true := by
  obtain ⟨hLeft, hRight, hUnits⟩ := numericallyEqual_iff.1 hEqual
  exact numericallyEqual_iff.2 ⟨hRight, hLeft, hUnits.symm⟩

/-- Nor does it lead from one value to another: equal floats have one exact value. -/
theorem numericallyEqual_trans (hFirst : x.numericallyEqual y = true)
    (hSecond : y.numericallyEqual z = true) :
    x.numericallyEqual z = true := by
  obtain ⟨hLeft, -, hUnits⟩ := numericallyEqual_iff.1 hFirst
  obtain ⟨-, hRight, hUnits'⟩ := numericallyEqual_iff.1 hSecond
  exact numericallyEqual_iff.2 ⟨hLeft, hRight, hUnits.trans hUnits'⟩

/-- Only what is not a number is unequal to itself. -/
theorem numericallyEqual_self_iff : x.numericallyEqual x = true ↔ x.isNaN = false := by
  simp [numericallyEqual_iff]

/-- Two floats that are equal are one, other than the zeros. -/
theorem eq_of_numericallyEqual (hEqual : x.numericallyEqual y = true) (hZero : x.isZero = false) :
    x = y := by
  obtain ⟨hLeft, hRight, hUnits⟩ := numericallyEqual_iff.1 hEqual
  rcases eq_or_isZero hLeft hRight hUnits with hSame | ⟨hIsZero, -⟩
  · exact hSame
  · rw [hZero] at hIsZero
    cases hIsZero

theorem isNaN_ofInt (n : Int) : (ofInt n).isNaN = false := by
  unfold ofInt ofUnits
  split <;> rfl

/-- A whole number of units is rounded by its size, and then gets its sign back. -/
theorem units_ofUnits (negativeZero : Bool) (units : Int) :
    (ofUnits negativeZero units).units =
      if units < 0 then -((Magnitude.round units.natAbs 1).units : Int)
      else (Magnitude.round units.natAbs 1).units := by
  unfold ofUnits
  split
  · rename_i hZero
    have hNone : Magnitude.round 0 1 = Magnitude.zero :=
      Magnitude.round_eq_zero Nat.one_pos (by decide)
    have hUnits : Magnitude.zero.units = 0 := by decide
    subst hZero
    simp [Binary64.units, hNone, hUnits]
  · by_cases hNegative : units < 0 <;> simp [Binary64.units, hNegative]

/-- Rounding keeps the order, whatever sign a zero gets. -/
theorem units_ofUnits_mono {a b : Int} (hLe : a ≤ b) (s t : Bool) :
    (ofUnits s a).units ≤ (ofUnits t b).units := by
  have hRound {i j : Nat} (hMagnitudes : i ≤ j) :
      (Magnitude.round i 1).units ≤ (Magnitude.round j 1).units :=
    Magnitude.units_le_units (Magnitude.rank_round_mono Nat.one_pos hMagnitudes)
  rw [units_ofUnits, units_ofUnits]
  split
  · rename_i hNegative
    split
    · have hMagnitudes := hRound (by omega : b.natAbs ≤ a.natAbs)
      omega
    · omega
  · have hMagnitudes := hRound (by omega : a.natAbs ≤ b.natAbs)
    rw [if_neg (by omega)]
    omega

/-- Integers keep their order as floats. -/
theorem units_ofInt_mono {a b : Int} (hLe : a ≤ b) : (ofInt a).units ≤ (ofInt b).units :=
  units_ofUnits_mono (Int.mul_le_mul_of_nonneg_right hLe (Int.natCast_nonneg _)) false false

end Binary64

namespace Number

variable {m n : Number}

theorem isNaN_integer (a : Fixnum) : (integer a).toBinary64.isNaN = false :=
  Binary64.isNaN_ofInt a.toInt

/-- A number that is no float is an integer. -/
theorem exists_integer (hInteger : n.isFloat = false) : ∃ a, n = .integer a := by
  cases n with
  | integer a => exact ⟨a, rfl⟩
  | float x => cases hInteger

/-- As soon as one of two numbers is a float, they are compared as floats. -/
theorem compare?_of_isFloat (hFloat : m.isFloat = true ∨ n.isFloat = true) :
    m.compare? n = m.toBinary64.compare? n.toBinary64 := by
  cases m with
  | float x => rfl
  | integer a =>
    cases n with
    | float y => rfl
    | integer b => simp [isFloat] at hFloat

-- Two integers that are one float: with the float in between, no order puts the three in line.
example :
    let m : Number := .integer ⟨2 ^ 53, by decide⟩
    let n : Number := .integer ⟨2 ^ 53 + 1, by decide⟩
    let x : Number := .float (.ofInt (2 ^ 53))
    m.compare? x = some .eq ∧ x.compare? n = some .eq ∧ m.compare? n = some .lt := by decide +kernel

theorem compare?_swap (m n : Number) : n.compare? m = (m.compare? n).map Ordering.swap := by
  cases m with
  | float x => cases n <;> exact Binary64.compare?_swap _ _
  | integer a =>
    cases n with
    | float y => exact Binary64.compare?_swap _ _
    | integer b => exact congrArg some Std.OrientedCmp.eq_swap

/-- There is no order only where one of the two is not a number. -/
theorem isNaN_of_compare?_eq_none (hNone : m.compare? n = none) :
    m.toBinary64.isNaN = true ∨ n.toBinary64.isNaN = true := by
  by_contra hNumbers
  obtain ⟨hLeft, hRight⟩ := not_or.1 hNumbers
  have hOrder := Binary64.compare?_eq (Bool.eq_false_iff.2 hLeft) (Bool.eq_false_iff.2 hRight)
  cases m with
  | float x => simp [compare?, hOrder] at hNone
  | integer a =>
    cases n with
    | float y => simp [compare?, hOrder] at hNone
    | integer b => cases hNone

end Number

end EmbeddedLisp
