import EmbeddedLisp.Number.Decimal
import Mathlib.Tactic.Ring

/-! Rounding to the nearest magnitude. It depends on the exact quotient only, gives every finite
magnitude back, and agrees with the bounds beyond which a decimal number is read without being
formed. So each decimal number that stands for a finite magnitude, the shortest one among them, is
read back as that magnitude. -/
namespace EmbeddedLisp

namespace Magnitude

theorem ofRank_rank (m : Magnitude) : ofRank m.rank = m :=
  Magnitude.ext (Nat.min_eq_left m.bounded)

/-- Rounding sees the quotient and not how it is written. -/
theorem round_mul_left {k : Nat} (hPos : 0 < k) (numerator denominator : Nat) :
    round (k * numerator) (k * denominator) = round numerator denominator := by
  have hDouble (a : Nat) : 2 * (k * a) = k * (2 * a) := Nat.mul_left_comm 2 k a
  have hEqual (a b : Nat) : (k * a == k * b) = (a == b) := by
    rw [Bool.eq_iff_iff, beq_iff_eq, beq_iff_eq, Nat.mul_right_inj (Nat.ne_of_gt hPos)]
  simp only [round, Nat.mul_div_mul_left _ _ hPos, Nat.mul_assoc, Nat.mul_mod_mul_left, hDouble,
    Nat.mul_lt_mul_left hPos, hEqual]

/-- Equal fractions are rounded to the same number. -/
theorem round_eq_of_cross {n d n' d' : Nat} (hPos : 0 < d) (hPos' : 0 < d')
    (hCross : n * d' = n' * d) : round n d = round n' d' := by
  calc round n d = round (d' * n) (d' * d) := (round_mul_left hPos' n d).symm
    _ = round (d * n') (d * d') := by
      rw [Nat.mul_comm d' n, hCross, Nat.mul_comm n' d, Nat.mul_comm d' d]
    _ = round n' d' := round_mul_left hPos n' d'

/-- A quotient that falls on a place of its block is that place. -/
theorem round_of_exact {quotient shift lower : Nat} (hShift : quotient.log2 - 52 = shift)
    (hExact : quotient = lower * 2 ^ shift) :
    round quotient 1 = ofRank (shift * blockSize + lower) := by
  have hPos : 0 < 2 ^ shift := Nat.two_pow_pos shift
  have hLower : quotient / 2 ^ shift = lower := by rw [hExact, Nat.mul_div_cancel _ hPos]
  have hExcess : quotient % 2 ^ shift = 0 := by rw [hExact, Nat.mul_mod_left]
  have hNone : (2 ^ shift == 0) = false := beq_eq_false_iff_ne.2 (Nat.ne_of_gt hPos)
  simp [round, hShift, hLower, hExcess, hNone]

/-- A magnitude is the nearest to its own units. Those of infinity are one place beyond the last
finite magnitude. -/
theorem round_units (m : Magnitude) : round m.units 1 = m := by
  unfold units
  split
  · rename_i hFirst
    have hLog : m.rank.log2 - 52 = 0 := by
      refine Nat.sub_eq_zero_of_le (Nat.le_of_lt_succ ?_)
      by_cases hZero : m.rank = 0
      · simp [hZero]
      · exact (Nat.log2_lt hZero).2 (Nat.lt_trans hFirst (by decide))
    rw [round_of_exact hLog (Nat.mul_one m.rank).symm, Nat.zero_mul, Nat.zero_add, ofRank_rank]
  · rename_i hLater
    have hBlock : 0 < m.rank / blockSize := Nat.div_pos (Nat.not_lt.1 hLater) (by decide)
    have hPlace : m.rank % blockSize < blockSize := Nat.mod_lt _ (by decide)
    have hDivMod := Nat.div_add_mod m.rank blockSize
    generalize m.rank / blockSize = block at hBlock hDivMod ⊢
    generalize m.rank % blockSize = place at hPlace hDivMod ⊢
    have hLog : ((blockSize + place) * 2 ^ (block - 1)).log2 = 52 + (block - 1) := by
      have hPos := Nat.two_pow_pos (block - 1)
      have hLow : 2 ^ 52 ≤ blockSize + place := Nat.le_add_right _ _
      have hHigh : blockSize + place < 2 ^ 53 := by simp only [blockSize] at *; omega
      rw [Nat.log2_eq_iff (Nat.mul_ne_zero (by omega) (Nat.ne_of_gt hPos)), Nat.pow_add,
        show 52 + (block - 1) + 1 = 53 + (block - 1) by omega, Nat.pow_add]
      exact ⟨Nat.mul_le_mul_right _ hLow, Nat.mul_lt_mul_of_pos_right hHigh hPos⟩
    have hShift : ((blockSize + place) * 2 ^ (block - 1)).log2 - 52 = block - 1 := by omega
    have hRank : (block - 1) * blockSize + (blockSize + place) = m.rank := by
      obtain ⟨k, rfl⟩ := Nat.exists_eq_succ_of_ne_zero (Nat.ne_of_gt hBlock)
      rw [← hDivMod, Nat.succ_sub_one, Nat.mul_succ, Nat.mul_comm, Nat.add_assoc]
    exact (round_of_exact hShift rfl).trans (by rw [hRank, ofRank_rank])

/-- Each power of two from `2 ^ 52` units on is the first of a block, and rounding does not go below
it. -/
theorem le_rank_round {n d k : Nat} (hPos : 0 < d) (hLarge : 2 ^ (k + 52) * d ≤ n) :
    min ((k + 1) * blockSize) infiniteRank ≤ (round n d).rank := by
  have hQuotient : 2 ^ (k + 52) ≤ n / d := (Nat.le_div_iff_mul_le hPos).2 hLarge
  have hNonzero : n / d ≠ 0 := Nat.ne_of_gt (Nat.lt_of_lt_of_le (Nat.two_pow_pos _) hQuotient)
  have hLog : k + 52 ≤ (n / d).log2 := (Nat.le_log2 hNonzero).2 hQuotient
  have hLower : 2 ^ 52 ≤ n / (d * 2 ^ ((n / d).log2 - 52)) := by
    rw [← Nat.div_div_eq_div_mul, Nat.le_div_iff_mul_le (Nat.two_pow_pos _), ← Nat.pow_add,
      Nat.add_sub_cancel' (by omega)]
    exact Nat.log2_self_le hNonzero
  have hShift : k * blockSize ≤ ((n / d).log2 - 52) * blockSize := Nat.mul_le_mul_right _ (by omega)
  have hRank : (k + 1) * blockSize = k * blockSize + 2 ^ 52 := Nat.succ_mul k blockSize
  rw [hRank]
  refine Nat.le_min.2 ⟨Nat.le_trans (Nat.min_le_left _ _) ?_, Nat.min_le_right _ _⟩
  refine Nat.le_trans (Nat.add_le_add hShift hLower) (Nat.add_le_add_left ?_ _)
  split
  · exact Nat.le_succ _
  · exact Nat.le_refl _

/-- Nor does rounding go beyond the power of two above. -/
theorem rank_round_le {n d k : Nat} (hPos : 0 < d) (hSmall : n < 2 ^ (k + 53) * d) :
    (round n d).rank ≤ (k + 2) * blockSize := by
  have hQuotient : n / d < 2 ^ (k + 53) := (Nat.div_lt_iff_lt_mul hPos).2 hSmall
  have hLog : (n / d).log2 ≤ k + 52 := by
    by_cases hZero : n / d = 0
    · simp [hZero]
    · exact Nat.le_of_lt_succ ((Nat.log2_lt hZero).2 hQuotient)
  have hLower : n / (d * 2 ^ ((n / d).log2 - 52)) < 2 ^ 53 := by
    rw [← Nat.div_div_eq_div_mul, Nat.div_lt_iff_lt_mul (Nat.two_pow_pos _), ← Nat.pow_add]
    refine Nat.lt_of_lt_of_le Nat.lt_log2_self (Nat.pow_le_pow_right (by decide) ?_)
    omega
  have hShift : ((n / d).log2 - 52) * blockSize ≤ k * blockSize := Nat.mul_le_mul_right _ (by omega)
  have hBlocks : 2 * blockSize = 2 ^ 53 := by decide
  rw [Nat.add_mul, hBlocks]
  refine Nat.le_trans (Nat.min_le_left _ _) (Nat.add_le_add hShift ?_)
  split
  · exact hLower
  · exact Nat.le_of_lt hLower

theorem le_units {m : Magnitude} {k : Nat} (hLarge : (k + 1) * blockSize ≤ m.rank) :
    2 ^ (k + 52) ≤ m.units := by
  have hPos : 0 < blockSize := by decide
  have hBlock : k + 1 ≤ m.rank / blockSize := (Nat.le_div_iff_mul_le hPos).2 hLarge
  have hLater : ¬m.rank < blockSize :=
    Nat.not_lt.2 (Nat.le_trans (Nat.le_mul_of_pos_left _ k.succ_pos) hLarge)
  rw [units, if_neg hLater, Nat.add_comm k, Nat.pow_add]
  exact Nat.mul_le_mul (Nat.le_add_right _ _) (Nat.pow_le_pow_right (by decide) (by omega))

theorem units_lt {m : Magnitude} {k : Nat} (hSmall : m.rank < (k + 1) * blockSize) :
    m.units < 2 ^ (k + 52) := by
  have hPos : 0 < blockSize := by decide
  unfold units
  split
  · rename_i hFirst
    have hPower : 2 ^ 52 ≤ 2 ^ (k + 52) := Nat.pow_le_pow_right (by decide) (by omega)
    exact Nat.lt_of_lt_of_le hFirst hPower
  · rename_i hLater
    have hNotFirst : 0 < m.rank / blockSize := Nat.div_pos (Nat.not_lt.1 hLater) hPos
    have hBlock : m.rank / blockSize < k + 1 := (Nat.div_lt_iff_lt_mul hPos).2 hSmall
    have hPlace : blockSize + m.rank % blockSize < 2 ^ 53 :=
      Nat.add_lt_add_left (Nat.mod_lt _ hPos) blockSize
    calc (blockSize + m.rank % blockSize) * 2 ^ (m.rank / blockSize - 1)
        < 2 ^ 53 * 2 ^ (m.rank / blockSize - 1) :=
          Nat.mul_lt_mul_of_pos_right hPlace (Nat.two_pow_pos _)
      _ = 2 ^ (53 + (m.rank / blockSize - 1)) := (Nat.pow_add _ _ _).symm
      _ ≤ 2 ^ (k + 52) := Nat.pow_le_pow_right (by decide) (by omega)

theorem units_le {m : Magnitude} {k : Nat} (hSmall : m.rank ≤ (k + 1) * blockSize) :
    m.units ≤ 2 ^ (k + 52) := by
  rcases Nat.lt_or_eq_of_le hSmall with hBefore | hFirst
  · exact Nat.le_of_lt (units_lt hBefore)
  · have hPos : 0 < blockSize := by decide
    have hLater : ¬m.rank < blockSize := Nat.not_lt.2 (hFirst ▸ Nat.le_mul_of_pos_left _ k.succ_pos)
    rw [units, if_neg hLater, hFirst, Nat.mul_mod_left, Nat.mul_div_cancel _ hPos,
      Nat.add_sub_cancel, Nat.add_comm k, Nat.pow_add]
    exact Nat.le_refl _

/-- No magnitude has more units than infinity, which counts as one place beyond the last finite
one. -/
theorem units_lt_two_pow {exponent : Nat} (hExponent : 2098 < exponent) (m : Magnitude) :
    m.units < 2 ^ exponent := by
  obtain ⟨k, hLast⟩ : ∃ k, k + 1 = 2047 := ⟨2046, rfl⟩
  have hRank : m.rank ≤ (k + 1) * blockSize := by
    rw [hLast]
    exact m.bounded
  exact Nat.lt_of_le_of_lt (units_le hRank) (Nat.pow_lt_pow_right (by decide) (by omega))

theorem isZero_of_units_eq_zero {m : Magnitude} (hUnits : m.units = 0) : m.isZero := by
  refine beq_iff_eq.2 ?_
  unfold units at hUnits
  split at hUnits
  · exact hUnits
  · rcases Nat.mul_eq_zero.1 hUnits with hPlace | hPower
    · exact absurd (Nat.eq_zero_of_add_eq_zero_right hPlace) (by decide)
    · exact absurd hPower (Nat.ne_of_gt (Nat.two_pow_pos _))

/-- With 2046 doublings of the distance, what is rounded is beyond the last finite magnitude. -/
theorem round_eq_infinity {n d exponent : Nat} (hPos : 0 < d) (hExponent : 2098 ≤ exponent)
    (hLarge : 2 ^ exponent * d ≤ n) : round n d = infinity := by
  obtain ⟨k, rfl⟩ : ∃ k, exponent = k + 52 := ⟨exponent - 52, by omega⟩
  have hRank : infiniteRank ≤ (k + 1) * blockSize := Nat.mul_le_mul_right _ (by omega)
  have hRound := le_rank_round hPos hLarge
  rw [Nat.min_eq_right hRank] at hRound
  exact Magnitude.ext (Nat.le_antisymm (round n d).bounded hRound)

/-- Half a unit and less is nothing. -/
theorem round_eq_zero {n d : Nat} (hPos : 0 < d) (hSmall : 2 * n ≤ d) : round n d = zero := by
  have hQuotient : n / d = 0 := Nat.div_eq_of_lt (by omega)
  have hExcess : n % d = n := Nat.mod_eq_of_lt (by omega)
  simp [round, hQuotient, hExcess, zero, Nat.not_lt.2 hSmall]

end Magnitude

namespace Decimal

open Magnitude (round unitsPerOne)

theorem unitsPerOne_eq : unitsPerOne = 2 ^ 1074 := by
  unfold unitsPerOne
  generalize 1074 = places
  rfl

/-- The bounds beyond which nothing is formed agree with rounding. -/
theorem toMagnitude_eq_round (d : Decimal) :
    d.toMagnitude =
      round (d.significand * 10 ^ d.exponent.toNat * unitsPerOne) (10 ^ (-d.exponent).toNat) := by
  have hPos : 0 < 10 ^ (-d.exponent).toNat := Nat.pow_pos (by decide)
  unfold toMagnitude
  split
  · rename_i hZero
    rw [Magnitude.round_eq_zero hPos (by simp [hZero])]
  · rename_i hSignificand
    split
    · rename_i hLarge
      have hNone : (-d.exponent).toNat = 0 := by omega
      have hExponent : 310 ≤ d.exponent.toNat := by omega
      have hTen : 2 ^ 1024 ≤ 10 ^ 310 := by decide +kernel
      have hPower {least : Nat} (hLeast : least ≤ d.exponent.toNat) :
          10 ^ least ≤ 10 ^ d.exponent.toNat := Nat.pow_le_pow_right (by decide) hLeast
      have hValue : 2 ^ 1024 ≤ d.significand * 10 ^ d.exponent.toNat :=
        Nat.le_trans (Nat.le_trans hTen (hPower hExponent))
          (Nat.le_mul_of_pos_left _ (Nat.pos_of_ne_zero hSignificand))
      have hScaled : 2 ^ (1024 + 1074) * 10 ^ (-d.exponent).toNat ≤
          d.significand * 10 ^ d.exponent.toNat * unitsPerOne := by
        rw [hNone, pow_zero, Nat.mul_one, pow_add, unitsPerOne_eq]
        exact Nat.mul_le_mul_right _ hValue
      exact (Magnitude.round_eq_infinity hPos (by decide) hScaled).symm
    · split
      · rename_i hSmall
        have hNone : d.exponent.toNat = 0 := by omega
        have hExponent : d.significand.log2 + 331 ≤ (-d.exponent).toNat := by omega
        have hTen : 2 ^ (2 + 1074) ≤ 10 ^ 331 := by decide +kernel
        have hTwo (k places : Nat) : 2 * (2 ^ (k + 1) * 2 ^ places) = 2 ^ k * 2 ^ (2 + places) := by
          ring
        refine (Magnitude.round_eq_zero hPos ?_).symm
        rw [hNone, Nat.pow_zero, Nat.mul_one, unitsPerOne_eq]
        calc 2 * (d.significand * 2 ^ 1074)
            ≤ 2 * (2 ^ (d.significand.log2 + 1) * 2 ^ 1074) :=
              Nat.mul_le_mul_left _ (Nat.mul_le_mul_right _ (Nat.le_of_lt Nat.lt_log2_self))
          _ = 2 ^ d.significand.log2 * 2 ^ (2 + 1074) := hTwo _ 1074
          _ ≤ 10 ^ d.significand.log2 * 10 ^ 331 :=
              Nat.mul_le_mul (Nat.pow_le_pow_left (by decide) _) hTen
          _ = 10 ^ (d.significand.log2 + 331) := (pow_add _ _ _).symm
          _ ≤ 10 ^ (-d.exponent).toNat := Nat.pow_le_pow_right (by decide) hExponent
      · rfl

/-- A decimal number is read by its value. -/
theorem toMagnitude_eq_of_cross {d d' : Decimal}
    (hCross : d.significand * 10 ^ (d.exponent.toNat + (-d'.exponent).toNat) =
      d'.significand * 10 ^ (d'.exponent.toNat + (-d.exponent).toNat)) :
    d.toMagnitude = d'.toMagnitude := by
  rw [toMagnitude_eq_round, toMagnitude_eq_round]
  apply Magnitude.round_eq_of_cross (Nat.pow_pos (by decide)) (Nat.pow_pos (by decide))
  calc d.significand * 10 ^ d.exponent.toNat * unitsPerOne * 10 ^ (-d'.exponent).toNat
      = d.significand * 10 ^ (d.exponent.toNat + (-d'.exponent).toNat) * unitsPerOne := by ring
    _ = d'.significand * 10 ^ (d'.exponent.toNat + (-d.exponent).toNat) * unitsPerOne := by
      rw [hCross]
    _ = d'.significand * 10 ^ d'.exponent.toNat * unitsPerOne * 10 ^ (-d.exponent).toNat := by ring

/-- Zeros at the end of the significand may go into the exponent. -/
theorem toMagnitude_shift (significand k : Nat) (exponent : Int) :
    toMagnitude ⟨significand * 10 ^ k, exponent - k⟩ = toMagnitude ⟨significand, exponent⟩ := by
  apply toMagnitude_eq_of_cross
  simp only [Nat.mul_assoc, ← Nat.pow_add]
  congr 2
  omega

/-- The exact decimal of a number is read as that number. -/
theorem toMagnitude_exact (m : Magnitude) : (exact m).toMagnitude = m := by
  have hTen : Nat.pow 5 1074 * unitsPerOne = 10 ^ 1074 := by
    unfold unitsPerOne
    generalize 1074 = places
    exact (Nat.mul_pow 5 2 places).symm
  have hPos (places : Nat) : 0 < 10 ^ places := Nat.pow_pos (by decide)
  have hBefore : (exact m).exponent.toNat = 0 := rfl
  have hAfter : (-(exact m).exponent).toNat = 1074 := rfl
  rw [toMagnitude_eq_round, hBefore, hAfter]
  refine (Magnitude.round_eq_of_cross (hPos 1074) Nat.one_pos ?_).trans m.round_units
  rw [exact, Nat.pow_zero, Nat.mul_one, Nat.mul_one, Nat.mul_assoc, hTen]

theorem toMagnitude_trim (d : Decimal) : d.trim.toMagnitude = d.toMagnitude := by
  fun_induction trim d with
  | case1 => rfl
  | case2 d hMore ih =>
    rw [ih]
    have hTen : d.significand / 10 * 10 ^ 1 = d.significand := by omega
    have hShift := toMagnitude_shift (d.significand / 10) 1 (d.exponent + 1)
    rw [hTen] at hShift
    rw [← hShift]
    congr 2
    omega

/-- The shortest decimal number of a magnitude is read back as this magnitude. Either it was found
by reading it, or all digits of the magnitude are there. -/
theorem toMagnitude_shortest (m : Magnitude) : (shortest m).toMagnitude = m := by
  unfold shortest
  split
  · rename_i hZero
    exact Magnitude.ext (beq_iff_eq.1 hZero).symm
  · rw [toMagnitude_trim]
    generalize hFound : List.findSome? _ _ = found
    cases found with
    | none => rw [Option.getD_none, toMagnitude_exact]
    | some d =>
      obtain ⟨digits, -, hDigits⟩ := List.exists_of_findSome?_eq_some hFound
      have hRead := List.find?_some hDigits
      exact of_decide_eq_true hRead

end Decimal

end EmbeddedLisp
