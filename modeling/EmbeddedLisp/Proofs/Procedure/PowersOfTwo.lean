import EmbeddedLisp.Proofs.Number.Scaling
import EmbeddedLisp.Proofs.Procedure.Rounds

/-! Numbers taken apart into a mantissa and an exponent of two, and put together again. A number is
scaled by a power of two in steps, each of which is rounded. Steps up are exact until the number is
infinite. Of the steps down only those that come to the first magnitudes are rounded at all, and
then the next one leaves nothing, unless it is the last one. So there are at most two roundings, and
it is known when the first one spoils the second. To put a number together again never takes a step
that is rounded. -/
namespace EmbeddedLisp

namespace Binary64

open Magnitude (blockSize infiniteRank ofRank round round_eq_of_cross units_ofRank unitsPerOne
  unitsPerOne_pos)

variable {m : Magnitude} {s : Bool} {exponent : Int}

/-- The exact value of a number. What is not a number has none, and is in the place of zero. -/
def value (x : Binary64) : ℚ := x.units / unitsPerOne

/-- The sign of a number is the sign of its value. -/
theorem value_signed (s : Bool) (m : Magnitude) :
    (signed s m).value = if s then -m.value else m.value := by
  cases s with
  | false => rfl
  | true =>
    have hUnits : (signed true m).units = -(m.units : Int) := rfl
    rw [value, hUnits, Int.cast_neg, Int.cast_natCast, neg_div]
    rfl

theorem abs_value (s : Bool) (m : Magnitude) : |(signed s m).value| = m.value := by
  have hNonnegative : 0 ≤ m.value := div_nonneg (Nat.cast_nonneg _) (Nat.cast_nonneg _)
  rw [value_signed]
  cases s with
  | false => exact abs_of_nonneg hNonnegative
  | true => exact (abs_neg _).trans (abs_of_nonneg hNonnegative)

/-- A power of two that one step can scale by. -/
def powerOfTwo (exponent : Int) : Binary64 :=
  .signed false (.ofRank ((exponent + 1023).toNat * blockSize))

theorem exists_powerOfTwo (hNear : exponent.natAbs ≤ scaleStep) :
    ∃ power : Magnitude, powerOfTwo exponent = .signed false power ∧ power.isZero = false ∧
      power.isInfinite = false ∧
        power.units * 2 ^ (-exponent).toNat = 2 ^ exponent.toNat * unitsPerOne := by
  obtain ⟨shift, hShift⟩ : ∃ shift : Nat, (shift : Int) = exponent + 1022 :=
    ⟨(exponent + 1022).toNat, by simp only [scaleStep] at hNear; omega⟩
  have hBlock : (exponent + 1023).toNat = shift + 1 := by omega
  have hPos : 0 < blockSize := by decide
  have hBounded : shift * blockSize + blockSize < infiniteRank := by
    rw [← Nat.succ_mul]
    simp only [scaleStep] at hNear
    exact Nat.mul_lt_mul_of_pos_right (by omega) hPos
  have hRank : (ofRank (shift * blockSize + blockSize)).rank = shift * blockSize + blockSize :=
    Nat.min_eq_left (Nat.le_of_lt hBounded)
  refine ⟨ofRank (shift * blockSize + blockSize), by rw [powerOfTwo, hBlock, Nat.succ_mul],
    beq_eq_false_iff_ne.2 (by omega), beq_eq_false_iff_ne.2 (by omega), ?_⟩
  have hUnits : (ofRank (shift * blockSize + blockSize)).units = blockSize * 2 ^ shift :=
    units_ofRank (by omega) (.inr (Nat.le_refl _)) (Nat.le_of_lt hBounded)
  have hPower : blockSize = 2 ^ 52 := by decide
  have hPlaces : 52 + shift + (-exponent).toNat = exponent.toNat + 1074 := by omega
  rw [hUnits, Decimal.unitsPerOne_eq, hPower, ← Nat.pow_add, ← Nat.pow_add, ← Nat.pow_add, hPlaces]

/-- A power of two that one step can scale by is represented exactly. -/
theorem value_powerOfTwo (hNear : exponent.natAbs ≤ scaleStep) :
    (powerOfTwo exponent).value = 2 ^ exponent := by
  obtain ⟨power, hPower, -, -, hCross⟩ := exists_powerOfTwo hNear
  have hOne : (unitsPerOne : ℚ) ≠ 0 := Nat.cast_ne_zero.2 unitsPerOne_pos.ne'
  have hExponent : exponent = (exponent.toNat : Int) - ((-exponent).toNat : Int) := by omega
  rw [hPower, value_signed, if_neg Bool.false_ne_true, Magnitude.value]
  conv_rhs => rw [hExponent]
  rw [zpow_sub₀ two_ne_zero, zpow_natCast, zpow_natCast,
    div_eq_div_iff hOne (pow_ne_zero _ two_ne_zero)]
  exact_mod_cast hCross

/-- One step multiplies by a power of two. -/
theorem mul_powerOfTwo (x : Binary64) (hNear : exponent.natAbs ≤ scaleStep) :
    x.mul (powerOfTwo exponent) = x.scaleOnce exponent := by
  obtain ⟨power, hPower, hNonzero, hFinite, hCross⟩ := exists_powerOfTwo hNear
  rw [hPower]
  cases x with
  | nan => rfl
  | signed s m =>
    simp only [mul, scaleOnce, hFinite, hNonzero, Bool.or_false, Bool.bne_false]
    cases hInfinite : m.isInfinite with
    | true =>
      obtain rfl : m = .infinity := Magnitude.ext (beq_iff_eq.1 hInfinite)
      have hLarge : Magnitude.infinity.isZero = false := by decide
      simp only [hLarge, if_true, Bool.false_eq_true, if_false]
    | false =>
      have hScaled : m.units * power.units * 2 ^ (-exponent).toNat =
          m.units * 2 ^ exponent.toNat * unitsPerOne := by
        rw [Nat.mul_assoc, hCross, Nat.mul_assoc]
      exact congrArg (Binary64.signed s)
        (round_eq_of_cross unitsPerOne_pos (Nat.two_pow_pos _) hScaled)

/-- A step that is near enough is rounded once. -/
theorem scale_of_near (hNear : exponent.natAbs ≤ scaleStep) (hFinite : m.isInfinite = false)
    (s : Bool) :
    scale (.signed s m) exponent =
      .signed s (round (m.units * 2 ^ exponent.toNat) (2 ^ (-exponent).toNat)) := by
  rw [scale, if_pos hNear, scaleOnce, hFinite]
  rfl

theorem scale_infinity (s : Bool) (exponent : Int) :
    scale (.signed s .infinity) exponent = .signed s .infinity := by
  rw [scale]
  split
  · rfl
  · rfl

theorem scale_nan (s : Bool) (exponent : Int) : scale (.nan s) exponent = .nan s := by
  rw [scale]
  split
  · rfl
  · rfl

theorem round_zero_mul (k : Nat) {d : Nat} (hPos : 0 < d) :
    round (Magnitude.zero.units * k) d = .zero := by
  have hNone : Magnitude.zero.units = 0 := rfl
  rw [hNone, Nat.zero_mul]
  exact Magnitude.round_eq_zero hPos (Nat.zero_le d)

theorem scale_zero (s : Bool) (exponent : Int) :
    scale (.signed s .zero) exponent = .signed s .zero := by
  by_cases hNear : exponent.natAbs ≤ scaleStep
  · rw [scale_of_near hNear rfl, round_zero_mul _ (Nat.two_pow_pos _)]
  · rw [scale, if_neg hNear]
    rfl

/-- The step that comes first, if one is not enough. -/
theorem scale_of_step (hFar : ¬exponent.natAbs ≤ scaleStep) (hFinite : m.isInfinite = false)
    (s : Bool) :
    scale (.signed s m) exponent =
      scale (.signed s (round (m.units * 2 ^ (stepToward exponent).toNat)
      (2 ^ (-stepToward exponent).toNat))) (exponent - stepToward exponent) := by
  cases hZero : m.isZero with
  | true =>
    obtain rfl : m = .zero := Magnitude.ext (beq_iff_eq.1 hZero)
    rw [round_zero_mul _ (Nat.two_pow_pos _), scale_zero, scale_zero]
  | false =>
    have hMoves : ¬((signed s m).isZero || !(signed s m).isFinite) := by
      simp [isZero, isFinite, isNaN, isInfinite, hZero, hFinite]
    rw [scale_of_far hFar hMoves, scaleOnce, hFinite]
    rfl

/-- Up to any exponent the steps come to what one step would come to. -/
theorem scale_up (hFinite : m.isInfinite = false) (s : Bool) (k : Nat) :
    scale (.signed s m) k = .signed s (round (m.units * 2 ^ k) 1) := by
  induction k using Nat.strongRecOn generalizing m with
  | _ k ih =>
    by_cases hNear : (k : Int).natAbs ≤ scaleStep
    · rw [scale_of_near hNear hFinite, Int.toNat_natCast, Int.toNat_neg_natCast, Nat.pow_zero]
    · obtain ⟨left, rfl⟩ : ∃ left, k = scaleStep + left := ⟨k - scaleStep, by omega⟩
      have hToward : stepToward (scaleStep + left : Nat) = scaleStep := if_neg (by omega)
      have hLeft : ((scaleStep + left : Nat) : Int) - scaleStep = left := by omega
      have hLess : left < scaleStep + left := Nat.lt_add_of_pos_left (by decide)
      rw [scale_of_step hNear hFinite, hToward, hLeft, Int.toNat_natCast, Int.toNat_neg_natCast,
        Nat.pow_zero, Nat.pow_add, ← Nat.mul_assoc]
      cases hBeyond : (round (m.units * 2 ^ scaleStep) 1).isInfinite with
      | true =>
        have hInfinite : round (m.units * 2 ^ scaleStep) 1 = .infinity :=
          Magnitude.ext (beq_iff_eq.1 hBeyond)
        have hRank := Magnitude.rank_round_mono Nat.one_pos
          (Nat.le_mul_of_pos_right (m.units * 2 ^ scaleStep) (Nat.two_pow_pos left))
        rw [hInfinite] at hRank
        have hSame : round (m.units * 2 ^ scaleStep * 2 ^ left) 1 = .infinity :=
          Magnitude.ext (Nat.le_antisymm (Magnitude.bounded _) hRank)
        rw [hInfinite, hSame, scale_infinity]
      | false =>
        have hExact : (round (m.units * 2 ^ scaleStep) 1).units = m.units * 2 ^ scaleStep := by
          refine (m.units_round_mul_two_pow scaleStep).resolve_right fun hInfinite => ?_
          rw [hInfinite] at hBeyond
          cases hBeyond
        rw [ih left hLess hBeyond, hExact]

/-- Scaled down, a finite magnitude stays finite. -/
theorem isInfinite_round_two_pow (hFinite : m.isInfinite = false) (k : Nat) :
    (round m.units (2 ^ k)).isInfinite = false := by
  have hRank : (round m.units (2 ^ k)).rank ≤ (round (m.units * 2 ^ k) (2 ^ k)).rank :=
    Magnitude.rank_round_mono (Nat.two_pow_pos k) (Nat.le_mul_of_pos_right _ (Nat.two_pow_pos k))
  have hSame : round (m.units * 2 ^ k) (2 ^ k) = m := by
    conv_rhs => rw [← m.round_units]
    exact round_eq_of_cross (Nat.two_pow_pos k) Nat.one_pos (Nat.mul_one _)
  have hBefore : m.rank ≠ infiniteRank := beq_eq_false_iff_ne.1 hFinite
  have hBounded := m.bounded
  rw [hSame] at hRank
  exact beq_eq_false_iff_ne.2 (by omega)

/-- Below zero all steps but the last come to what one step would come to. -/
theorem scale_down (hFinite : m.isInfinite = false) (s : Bool) (steps : Nat) {left : Nat}
    (hSome : 0 < left) (hNear : left ≤ scaleStep) :
    scale (.signed s m) (-(scaleStep * steps + left : Nat)) =
      .signed s (round (round m.units (2 ^ (scaleStep * steps))).units (2 ^ left)) := by
  induction steps generalizing m with
  | zero =>
    have hNatAbs : (-(scaleStep * 0 + left : Nat) : Int).natAbs ≤ scaleStep := by omega
    rw [scale_of_near hNatAbs hFinite, Nat.mul_zero, Nat.zero_add, Int.toNat_neg_natCast, neg_neg,
      Int.toNat_natCast, Nat.pow_zero, Nat.mul_one, m.round_units]
  | succ steps ih =>
    have hFar : ¬(-(scaleStep * (steps + 1) + left : Nat) : Int).natAbs ≤ scaleStep := by
      rw [Nat.mul_succ]
      omega
    have hToward : stepToward (-(scaleStep * (steps + 1) + left : Nat)) = -scaleStep :=
      if_pos (by omega)
    have hLeft : (-(scaleStep * (steps + 1) + left : Nat) : Int) - -scaleStep =
        -(scaleStep * steps + left : Nat) := by
      rw [Nat.mul_succ]
      omega
    rw [scale_of_step hFar hFinite, hToward, hLeft, Int.toNat_neg_natCast, neg_neg,
      Int.toNat_natCast, Nat.pow_zero, Nat.mul_one, ih (isInfinite_round_two_pow hFinite scaleStep)]
    cases steps with
    | zero => rw [Nat.mul_zero, Nat.pow_zero, Magnitude.round_units, Nat.zero_add, Nat.mul_one]
    | succ steps =>
      have hManyPlaces : 54 ≤ scaleStep * (steps + 1) :=
        Nat.le_trans (by decide) (Nat.le_mul_of_pos_right scaleStep steps.succ_pos)
      rw [Magnitude.round_round_of_far m scaleStep hManyPlaces, Nat.mul_succ scaleStep (steps + 1),
        Nat.add_comm]

/-- Unless there are steps down to be made before the last one, the number is rounded once. -/
theorem scale_once (hFinite : m.isInfinite = false) (s : Bool) (hLarge : -scaleStep ≤ exponent) :
    scale (.signed s m) exponent =
      .signed s (round (m.units * 2 ^ exponent.toNat) (2 ^ (-exponent).toNat)) := by
  by_cases hNear : exponent.natAbs ≤ scaleStep
  · exact scale_of_near hNear hFinite s
  · obtain ⟨k, rfl⟩ := Int.eq_ofNat_of_zero_le (show 0 ≤ exponent by omega)
    rw [scale_up hFinite, Int.toNat_natCast, Int.toNat_neg_natCast, Nat.pow_zero]

/-- How a number is taken apart by its encoding. The exponent of a number of a later block is the
number of its block, and another one is put in its place. A number of the first block is doubled
into a later one first. -/
inductive TakesApart : Binary64 → Binary64 → Int → Prop where
  | whole {x : Binary64} (hWhole : x.isZero ∨ x.isFinite = false) : TakesApart x x 0
  | normal {s : Bool} {m : Magnitude} (hFinite : m.isInfinite = false)
      (hLater : blockSize ≤ m.rank) :
      TakesApart (.signed s m) (.signed s (.ofRank (1022 * blockSize + m.rank % blockSize)))
        ((m.rank / blockSize : Nat) - 1022)
  | subnormal {s : Bool} {m : Magnitude} {y : Binary64} {e : Int} (hNonzero : m.isZero = false)
      (hFirst : m.rank < blockSize) (hDoubled : TakesApart ((signed s m).mul (powerOfTwo 54)) y e) :
      TakesApart (.signed s m) y (e - 54)

/-- A place in the last block before one, which times the power of two is the magnitude. -/
structure MantissaAt (m : Magnitude) (place : Nat) : Prop where
  low : blockSize ≤ place
  high : place < 2 * blockSize
  mantissa_eq : mantissa m = ofRank (1021 * blockSize + place)
  cross : m.units * 2 ^ (-binaryExponent m).toNat = place * 2 ^ 1021 * 2 ^ (binaryExponent m).toNat
  least : -1073 ≤ binaryExponent m
  last : binaryExponent m ≤ 1024

/-- A magnitude of the first block is doubled until its leading bit is in front. -/
theorem mantissaAt_first (hNonzero : m.isZero = false) (hFirst : m.rank < blockSize) :
    MantissaAt m (m.rank * 2 ^ (52 - m.rank.log2)) := by
  have hRank : m.rank ≠ 0 := beq_eq_false_iff_ne.1 hNonzero
  have hLog : m.rank.log2 < 52 := (Nat.log2_lt hRank).2 hFirst
  obtain ⟨doublings, hDoublings⟩ : ∃ doublings, m.rank.log2 + doublings = 52 :=
    ⟨52 - m.rank.log2, by omega⟩
  have hPlaces : 52 - m.rank.log2 = doublings := by omega
  have hAbove : blockSize ≤ m.rank * 2 ^ doublings :=
    calc blockSize = 2 ^ m.rank.log2 * 2 ^ doublings := by rw [← Nat.pow_add, hDoublings]; rfl
      _ ≤ m.rank * 2 ^ doublings := Nat.mul_le_mul_right _ (Nat.log2_self_le hRank)
  have hBelow : m.rank * 2 ^ doublings < 2 * blockSize :=
    calc m.rank * 2 ^ doublings < 2 ^ (m.rank.log2 + 1) * 2 ^ doublings :=
          Nat.mul_lt_mul_of_pos_right Nat.lt_log2_self (Nat.two_pow_pos _)
      _ = 2 * blockSize := by rw [← Nat.pow_add, Nat.add_right_comm, hDoublings]; rfl
  have hExponent : binaryExponent m = (m.rank.log2 : Int) - 1073 := if_pos hFirst
  rw [hPlaces]
  refine ⟨hAbove, hBelow, ?_, ?_, by omega, by omega⟩
  · have hBlock : 1022 * blockSize + (m.rank * 2 ^ doublings - blockSize) =
        1021 * blockSize + m.rank * 2 ^ doublings := by omega
    rw [mantissa, if_pos hFirst, hPlaces]
    exact congrArg ofRank hBlock
  · have hDown : (-binaryExponent m).toNat = doublings + 1021 := by omega
    have hUp : (binaryExponent m).toNat = 0 := by omega
    have hUnits : m.units = m.rank := if_pos hFirst
    have hSplit (places : Nat) : m.rank * 2 ^ (doublings + places) =
        m.rank * 2 ^ doublings * 2 ^ places * 2 ^ 0 := by
      rw [Nat.pow_add, Nat.pow_zero, Nat.mul_one, Nat.mul_assoc]
    rw [hDown, hUp, hUnits]
    exact hSplit 1021

/-- A magnitude of a later block keeps its place in the block. -/
theorem mantissaAt_later (hFinite : m.isInfinite = false) (hLater : blockSize ≤ m.rank) :
    MantissaAt m (blockSize + m.rank % blockSize) := by
  have hNotFirst : ¬m.rank < blockSize := Nat.not_lt.2 hLater
  have hPlace : m.rank % blockSize < blockSize := Nat.mod_lt _ (by decide)
  have hBlock : 1 ≤ m.rank / blockSize := Nat.div_pos hLater (by decide)
  have hLast : m.rank / blockSize < 2047 := by
    have hBefore : m.rank ≠ infiniteRank := beq_eq_false_iff_ne.1 hFinite
    refine (Nat.div_lt_iff_lt_mul (by decide)).2 (Nat.lt_of_le_of_ne m.bounded hBefore)
  have hExponent : binaryExponent m = ((m.rank / blockSize : Nat) : Int) - 1022 := if_neg hNotFirst
  refine ⟨Nat.le_add_right _ _, by omega, ?_, ?_, by omega, by omega⟩
  · have hBlocks : 1022 * blockSize = 1021 * blockSize + blockSize := Nat.succ_mul 1021 blockSize
    rw [mantissa, if_neg hNotFirst, ← Nat.add_assoc, hBlocks]
  · have hUnits : m.units = (blockSize + m.rank % blockSize) * 2 ^ (m.rank / blockSize - 1) :=
      if_neg hNotFirst
    have hPlaces : m.rank / blockSize - 1 + (-binaryExponent m).toNat =
        1021 + (binaryExponent m).toNat := by
      omega
    rw [hUnits, Nat.mul_assoc, Nat.mul_assoc, ← Nat.pow_add, ← Nat.pow_add, hPlaces]

/-- Every finite number that is not zero has a mantissa: its rank is in some block. -/
theorem exists_mantissaAt (hNonzero : m.isZero = false) (hFinite : m.isInfinite = false) :
    ∃ place, MantissaAt m place := by
  rcases Nat.lt_or_ge m.rank blockSize with hFirst | hLater
  · exact ⟨_, mantissaAt_first hNonzero hFirst⟩
  · exact ⟨_, mantissaAt_later hFinite hLater⟩

namespace MantissaAt

variable {place : Nat} (h : MantissaAt m place)

include h

theorem bounded : 1021 * blockSize + place < infiniteRank := by
  have hHigh := h.high
  simp only [infiniteRank]
  omega

theorem units : (mantissa m).units = place * 2 ^ 1021 := by
  rw [h.mantissa_eq]
  exact units_ofRank (Nat.le_of_lt h.high) (.inr h.low) (Nat.le_of_lt h.bounded)

theorem isInfinite : (mantissa m).isInfinite = false := by
  have hRank : (ofRank (1021 * blockSize + place)).rank = 1021 * blockSize + place :=
    Nat.min_eq_left (Nat.le_of_lt h.bounded)
  have hBounded := h.bounded
  rw [h.mantissa_eq, Magnitude.isInfinite, hRank, beq_eq_false_iff_ne]
  omega

theorem value : m.value = (mantissa m).value * 2 ^ binaryExponent m := by
  have hPower : ((2 ^ (-binaryExponent m).toNat : Nat) : ℚ) ≠ 0 :=
    Nat.cast_ne_zero.2 (Nat.two_pow_pos _).ne'
  rw [Magnitude.value_mul_two_zpow, h.units, ← h.cross, Nat.cast_mul,
    mul_div_cancel_right₀ _ hPower, Magnitude.value]

/-- The mantissa is at least one half and less than one. -/
theorem range : 1 / 2 ≤ (mantissa m).value ∧ (mantissa m).value < 1 := by
  have hScale : (2 ^ 1021 : ℚ) / unitsPerOne = 2 ^ (-53 : Int) :=
    Magnitude.zpow_div_unitsPerOne 1021
  have hValue : (mantissa m).value = place * 2 ^ (-53 : Int) := by
    rw [Magnitude.value, h.units, Nat.cast_mul, Nat.cast_pow, Nat.cast_ofNat, mul_div_assoc, hScale]
  have hLeast : (4503599627370496 : ℚ) ≤ place := by exact_mod_cast h.low
  have hBound : (place : ℚ) < 9007199254740992 := by exact_mod_cast h.high
  have hPower : (2 : ℚ) ^ (-53 : Int) = 1 / 9007199254740992 := by norm_num
  rw [hValue, hPower]
  constructor <;> linarith

/-- No step down from a mantissa but the last one comes to the first magnitudes. -/
theorem exact :
    (round (mantissa m).units (2 ^ (scaleStep * 1))).units * 2 ^ (scaleStep * 1) =
      (mantissa m).units := by
  have hPowers {low high : Nat} (hLess : low < high) : 2 ^ 53 * 2 ^ low ≤ place * 2 ^ high :=
    calc 2 ^ 53 * 2 ^ low = blockSize * 2 ^ (low + 1) := by
          rw [Nat.pow_succ 2 low, Nat.mul_comm (2 ^ low), ← Nat.mul_assoc]
          rfl
      _ ≤ place * 2 ^ high := Nat.mul_le_mul h.low (Nat.pow_le_pow_right (by decide) hLess)
  refine ((mantissa m).units_round_two_pow _).resolve_right (Nat.not_lt.2 ?_)
  rw [h.units]
  exact hPowers (by decide)

/-- No step of putting a number together again is rounded. -/
theorem scale (s : Bool) : (signed s (mantissa m)).scale (binaryExponent m) = .signed s m := by
  have hOnce {up down : Nat} (hSame : (mantissa m).units * 2 ^ up = m.units * 2 ^ down) :
      round ((mantissa m).units * 2 ^ up) (2 ^ down) = m := by
    conv_rhs => rw [← m.round_units]
    exact round_eq_of_cross (Nat.two_pow_pos _) Nat.one_pos (by rw [Nat.mul_one, hSame])
  have hCross : (mantissa m).units * 2 ^ (binaryExponent m).toNat =
      m.units * 2 ^ (-binaryExponent m).toNat := by
    rw [h.units, h.cross]
  rcases le_or_gt (-scaleStep : Int) (binaryExponent m) with hNear | hFar
  · rw [scale_once h.isInfinite s hNear, hOnce hCross]
  · obtain ⟨left, hLeft⟩ : ∃ left : Nat, binaryExponent m = -(scaleStep * 1 + left : Nat) :=
      ⟨(-binaryExponent m - scaleStep).toNat, by omega⟩
    have hLeast := h.least
    have hSome : 0 < left := by omega
    have hLast : left ≤ scaleStep := by
      simp only [scaleStep] at hLeft ⊢
      omega
    rw [hLeft, Int.toNat_neg_natCast, neg_neg, Int.toNat_natCast] at hCross
    rw [hLeft, scale_down h.isInfinite s 1 hSome hLast, Magnitude.round_round_of_exact h.exact]
    have hRound := hOnce hCross
    rw [Nat.pow_zero, Nat.mul_one] at hRound
    rw [hRound]

end MantissaAt

theorem not_whole (hNonzero : m.isZero = false) (hFinite : m.isInfinite = false) (s : Bool) :
    ¬((signed s m).isZero ∨ (signed s m).isFinite = false) := by
  simp [isZero, isFinite, isNaN, isInfinite, hNonzero, hFinite]

theorem isZero_of_later (hLater : blockSize ≤ m.rank) : m.isZero = false := by
  have hPos : 0 < blockSize := by decide
  exact beq_eq_false_iff_ne.2 (by omega)

theorem isInfinite_of_first (hFirst : m.rank < blockSize) : m.isInfinite = false := by
  have hBefore : blockSize < infiniteRank := by decide
  exact beq_eq_false_iff_ne.2 (by omega)

/-- A number is taken apart in one way only. -/
theorem TakesApart.unique {x y y' : Binary64} {e e' : Int} (h : TakesApart x y e)
    (h' : TakesApart x y' e') :
    y = y' ∧ e = e' := by
  induction h generalizing y' e' with
  | whole hWhole =>
    cases h' with
    | whole => exact ⟨rfl, rfl⟩
    | normal hFinite hLater => exact absurd hWhole (not_whole (isZero_of_later hLater) hFinite _)
    | subnormal hNonzero hFirst =>
      exact absurd hWhole (not_whole hNonzero (isInfinite_of_first hFirst) _)
  | normal hFinite hLater =>
    cases h' with
    | whole hWhole => exact absurd hWhole (not_whole (isZero_of_later hLater) hFinite _)
    | normal => exact ⟨rfl, rfl⟩
    | subnormal _ hFirst => exact absurd hFirst (Nat.not_lt.2 hLater)
  | subnormal hNonzero hFirst _ ih =>
    cases h' with
    | whole hWhole => exact absurd hWhole (not_whole hNonzero (isInfinite_of_first hFirst) _)
    | normal _ hLater => exact absurd hFirst (Nat.not_lt.2 hLater)
    | subnormal _ _ hDoubled =>
      obtain ⟨rfl, rfl⟩ := ih hDoubled
      exact ⟨rfl, rfl⟩

theorem mul_two_pow_of_cross {a b down up places shift : Nat} (hCross : a * 2 ^ down = b * 2 ^ up)
    (hPlaces : shift + down = up + places) : a * 2 ^ places = b * 2 ^ shift := by
  refine Nat.eq_of_mul_eq_mul_right (Nat.two_pow_pos down) ?_
  calc a * 2 ^ places * 2 ^ down
      = b * 2 ^ up * 2 ^ places := by rw [Nat.mul_right_comm, hCross]
    _ = b * 2 ^ shift * 2 ^ down := by
      rw [Nat.mul_assoc, ← Nat.pow_add, ← hPlaces, Nat.pow_add, Nat.mul_assoc]

/-- How a place in a later block is taken apart. -/
theorem takesApart_place {shift rest : Nat} (hRest : rest < blockSize)
    (hBounded : shift * blockSize + (blockSize + rest) < infiniteRank) (s : Bool) :
    TakesApart (.signed s (.ofRank (shift * blockSize + (blockSize + rest))))
      (.signed s (.ofRank (1022 * blockSize + rest))) ((shift + 1 : Nat) - 1022) := by
  have hPlace : shift * blockSize + (blockSize + rest) = blockSize * (shift + 1) + rest := by ring
  rw [hPlace] at hBounded ⊢
  have hRank : (ofRank (blockSize * (shift + 1) + rest)).rank = blockSize * (shift + 1) + rest :=
    Nat.min_eq_left (Nat.le_of_lt hBounded)
  have hRemainder : (ofRank (blockSize * (shift + 1) + rest)).rank % blockSize = rest := by
    rw [hRank, Nat.mul_add_mod, Nat.mod_eq_of_lt hRest]
  have hQuotient : (ofRank (blockSize * (shift + 1) + rest)).rank / blockSize = shift + 1 := by
    rw [hRank, Nat.mul_add_div (by decide), Nat.div_eq_of_lt hRest, Nat.add_zero]
  have hFinite : (ofRank (blockSize * (shift + 1) + rest)).isInfinite = false := by
    rw [Magnitude.isInfinite, hRank, beq_eq_false_iff_ne]
    omega
  have hLater : blockSize ≤ (ofRank (blockSize * (shift + 1) + rest)).rank := by
    rw [hRank]
    exact Nat.le_add_right_of_le (Nat.le_mul_of_pos_right _ shift.succ_pos)
  have hNormal := TakesApart.normal (s := s) hFinite hLater
  rwa [hRemainder, hQuotient] at hNormal

/-- A number of the first block is doubled into the block of its leading bit. -/
theorem mul_of_first {shift place : Nat} (hFirst : m.rank < blockSize) (hLow : blockSize ≤ place)
    (hHigh : place < 2 * blockSize) (hBounded : shift * blockSize + place < infiniteRank)
    (hDoubled : m.units * 2 ^ 54 = place * 2 ^ shift) (s : Bool) :
    (signed s m).mul (powerOfTwo 54) = .signed s (ofRank (shift * blockSize + place)) := by
  have hUnits := units_ofRank (Nat.le_of_lt hHigh) (.inr hLow) (Nat.le_of_lt hBounded)
  rw [mul_powerOfTwo _ (by decide), scaleOnce, isInfinite_of_first hFirst]
  refine congrArg (Binary64.signed s) ?_
  rw [← Magnitude.round_units (ofRank (shift * blockSize + place)), hUnits, ← hDoubled]
  rfl

theorem takesApart_of_first (hNonzero : m.isZero = false) (hFirst : m.rank < blockSize) (s : Bool) :
    TakesApart (.signed s m) (.signed s (mantissa m)) (binaryExponent m) := by
  have hLog : m.rank.log2 < 52 := (Nat.log2_lt (beq_eq_false_iff_ne.1 hNonzero)).2 hFirst
  have hExponent : binaryExponent m = (m.rank.log2 : Int) - 1073 := if_pos hFirst
  obtain ⟨place, hPlace⟩ := exists_mantissaAt hNonzero (isInfinite_of_first hFirst)
  obtain ⟨rest, rfl⟩ := Nat.exists_eq_add_of_le hPlace.low
  have hRest : rest < blockSize := by
    have hHigh := hPlace.high
    omega
  obtain ⟨shift, hShift⟩ : ∃ shift : Nat, shift = m.rank.log2 + 2 := ⟨_, rfl⟩
  have hDoubled : m.units * 2 ^ 54 = (blockSize + rest) * 2 ^ shift := by
    have hUp : (binaryExponent m).toNat = 0 := by omega
    have hCross := hPlace.cross
    rw [hUp, Nat.pow_zero, Nat.mul_one] at hCross
    exact mul_two_pow_of_cross hCross (by omega)
  have hBounded : shift * blockSize + (blockSize + rest) < infiniteRank := by
    have hBlocks : shift * blockSize ≤ 53 * blockSize := Nat.mul_le_mul_right _ (by omega)
    simp only [infiniteRank]
    omega
  have hApart := takesApart_place hRest hBounded s
  have hHigher : ((shift + 1 : Nat) : Int) - 1022 = binaryExponent m + 54 := by omega
  have hSame : ofRank (1022 * blockSize + rest) = mantissa m := by
    rw [hPlace.mantissa_eq, ← Nat.add_assoc, ← Nat.succ_mul]
  rw [← mul_of_first hFirst hPlace.low hPlace.high hBounded hDoubled, hSame, hHigher] at hApart
  have hFirstApart := TakesApart.subnormal hNonzero hFirst hApart
  rwa [Int.add_sub_cancel] at hFirstApart

theorem split_of_whole {x : Binary64} (hWhole : x.isZero ∨ x.isFinite = false) :
    x.split = (x, 0) := by
  cases x with
  | nan s => rfl
  | signed s m =>
    refine if_pos ?_
    simpa [isZero, isFinite, isNaN, isInfinite] using hWhole

theorem split_of_nonzero (hNonzero : m.isZero = false) (hFinite : m.isInfinite = false) (s : Bool) :
    split (.signed s m) =
      (.signed s (mantissa m), ⟨binaryExponent m, binaryExponent_inRange m⟩) := by
  refine if_neg ?_
  simp [hNonzero, hFinite]

/-- Zero, the infinities and NaN are their own scalings. -/
theorem scale_whole {x : Binary64} (hWhole : x.isZero ∨ x.isFinite = false) (exponent : Int) :
    x.scale exponent = x := by
  cases x with
  | nan s => exact scale_nan s exponent
  | signed s m =>
    rcases hWhole with hZero | hInfinite
    · obtain rfl : m = .zero := Magnitude.ext (beq_iff_eq.1 hZero)
      exact scale_zero s exponent
    · have hLast : m.isInfinite = true := by simpa [isFinite, isNaN, isInfinite] using hInfinite
      obtain rfl : m = .infinity := Magnitude.ext (beq_iff_eq.1 hLast)
      exact scale_infinity s exponent

theorem exists_signed {x : Binary64} (hWhole : ¬(x.isZero ∨ x.isFinite = false)) :
    ∃ s m, x = .signed s m ∧ m.isZero = false ∧ m.isInfinite = false := by
  cases x with
  | nan s => exact absurd (.inr rfl) hWhole
  | signed s m => exact ⟨s, m, rfl, by simpa [isZero, isFinite, isNaN, isInfinite] using hWhole⟩

/-- Numbers are taken apart as their encoding says. -/
theorem takesApart_iff {x y : Binary64} {e : Int} :
    TakesApart x y e ↔ y = x.split.1 ∧ e = x.split.2.toInt := by
  have hSplit : TakesApart x x.split.1 x.split.2.toInt := by
    by_cases hWhole : x.isZero ∨ x.isFinite = false
    · rw [split_of_whole hWhole]
      exact .whole hWhole
    · obtain ⟨s, m, rfl, hNonzero, hFinite⟩ := exists_signed hWhole
      rw [split_of_nonzero hNonzero hFinite]
      by_cases hFirst : m.rank < blockSize
      · exact takesApart_of_first hNonzero hFirst s
      · have hNormal := TakesApart.normal (s := s) hFinite (Nat.not_lt.1 hFirst)
        have hMantissa : mantissa m = ofRank (1022 * blockSize + m.rank % blockSize) := by
          rw [mantissa, if_neg hFirst]
        have hExponent : binaryExponent m = ((m.rank / blockSize : Nat) : Int) - 1022 :=
          if_neg hFirst
        rwa [← hMantissa, ← hExponent] at hNormal
  constructor
  · exact fun hApart => hApart.unique hSplit
  · rintro ⟨rfl, rfl⟩
    exact hSplit

/-- A number is put together again from its parts. -/
theorem scale_split (x : Binary64) : x.split.1.scale x.split.2.toInt = x := by
  by_cases hWhole : x.isZero ∨ x.isFinite = false
  · rw [split_of_whole hWhole]
    exact scale_whole hWhole 0
  · obtain ⟨s, m, rfl, hNonzero, hFinite⟩ := exists_signed hWhole
    rw [split_of_nonzero hNonzero hFinite]
    obtain ⟨place, hPlace⟩ := exists_mantissaAt hNonzero hFinite
    exact hPlace.scale s

end Binary64

namespace Builtin

open Binary64 Magnitude

/-- A call of `ldexp` scales by the exponent it is given. -/
theorem ldexp_call (x : Binary64) (exponent : Fixnum) :
    ldexp.operation.call [.float x, .integer exponent] = .ok (.float (x.scale exponent.toInt)) :=
  rfl

/-- A number is the mantissa it is taken apart into times the power of two, and comes back whole
when it is put together again. -/
theorem ldexp_frexp (x : Binary64) :
    ∃ y e, frexp.operation.call [.float x] = .ok (.list [.float y, .integer e]) ∧
      (∀ y' e', TakesApart x y' e' ↔ y' = y ∧ e' = e.toInt) ∧
      ldexp.operation.call [.float y, .integer e] = .ok (.float x) ∧
      if x.isZero ∨ x.isFinite = false then y = x ∧ e = 0
      else y.isNegative = x.isNegative ∧ 1 / 2 ≤ |y.value| ∧ |y.value| < 1 ∧
        x.value = y.value * 2 ^ e.toInt ∧ -1073 ≤ e.toInt ∧ e.toInt ≤ 1024 := by
  refine ⟨x.split.1, x.split.2, rfl, fun y' e' => takesApart_iff, ?_, ?_⟩
  · rw [ldexp_call, scale_split]
  · split
    · next hWhole => rw [split_of_whole hWhole]; exact ⟨rfl, rfl⟩
    · next hWhole =>
      obtain ⟨s, m, rfl, hNonzero, hFinite⟩ := exists_signed hWhole
      obtain ⟨place, hPlace⟩ := exists_mantissaAt hNonzero hFinite
      obtain ⟨hHalf, hOne⟩ := hPlace.range
      rw [split_of_nonzero hNonzero hFinite, abs_value]
      refine ⟨rfl, hHalf, hOne, ?_, hPlace.least, hPlace.last⟩
      rw [value_signed, value_signed, hPlace.value]
      split
      · rw [neg_mul]
      · rfl

/-- A finite number scaled by a power of two is the nearest one, unless there are steps down to be
made before the last one. Then it is rounded twice, and is the nearest one exactly if the first
rounding does not mislead the second. A result that is not among the first magnitudes always is the
nearest. -/
theorem ldexp_nearest_iff {m : Magnitude} (hFinite : m.isInfinite = false) (s : Bool)
    (exponent : Fixnum) :
    (∀ step : Int, step.natAbs ≤ scaleStep →
      (powerOfTwo step).value = 2 ^ step ∧
        ∀ x : Binary64, x.mul (powerOfTwo step) = x.scaleOnce step) ∧
    ∃ r, ldexp.operation.call [.float (.signed s m), .integer exponent] =
      .ok (.float (.signed s r)) ∧
      (-scaleStep ≤ exponent.toInt → Nearest (m.value * 2 ^ exponent.toInt) r) ∧
      (exponent.toInt < -scaleStep → ∃ steps left inner,
        exponent.toInt = -(scaleStep * steps + left : Nat) ∧ 0 < left ∧ left ≤ scaleStep ∧
        Nearest (m.value * 2 ^ (-(scaleStep * steps : Nat) : Int)) inner ∧
        Nearest (inner.value * 2 ^ (-left : Int)) r ∧
        (Nearest (m.value * 2 ^ exponent.toInt) r ↔
          ¬Misled (m.value * 2 ^ exponent.toInt) (inner.value * 2 ^ (-left : Int))) ∧
        (2 ^ (-1022 : Int) ≤ m.value * 2 ^ exponent.toInt →
          Nearest (m.value * 2 ^ exponent.toInt) r)) := by
  refine ⟨fun step hNear => ⟨value_powerOfTwo hNear, fun x => mul_powerOfTwo x hNear⟩, ?_⟩
  rw [ldexp_call]
  generalize exponent.toInt = exponent
  rcases le_or_gt (-scaleStep : Int) exponent with hLarge | hSmall
  · rw [scale_once hFinite s hLarge]
    exact ⟨_, rfl, fun _ => nearest_scaled m exponent, fun hSmall =>
      absurd hLarge (not_le.2 hSmall)⟩
  · obtain ⟨steps, places, rfl, hPlaces⟩ : ∃ steps places : Nat,
        exponent = -(scaleStep * steps + (places + 1) : Nat) ∧ places + 1 ≤ scaleStep := by
      simp only [scaleStep] at hSmall ⊢
      exact ⟨(-exponent - 1).toNat / 1000, (-exponent - 1).toNat % 1000, by omega, by omega⟩
    rw [scale_down hFinite s steps places.succ_pos hPlaces]
    have hTwice := nearest_twice_iff m (scaleStep * steps) places
    refine ⟨_, rfl, fun hLarge => absurd hLarge (not_le.2 hSmall), fun _ =>
      ⟨steps, places + 1, _, rfl,
      places.succ_pos, hPlaces, nearest_halved m _, nearest_halved _ (places + 1), hTwice,
      fun hLater => hTwice.2 (not_misled_of_le hLater)⟩⟩

/-- Minus one goes down to the first number of the second block in two steps. -/
theorem ldexp_nearest_iff_one :
    ∃ r, ldexp.operation.call [.float (.signed true (.ofRank (1023 * blockSize))),
      .integer ⟨-1022, by decide⟩] =
        .ok (.float (.signed true r)) ∧
      Nearest ((ofRank (1023 * blockSize)).value * 2 ^ (-1022 : Int)) r := by
  have hUnits : (ofRank (1023 * blockSize)).units = unitsPerOne := by decide +kernel
  have hValue : (ofRank (1023 * blockSize)).value = 1 := by
    rw [Magnitude.value, hUnits]
    exact div_self (Nat.cast_ne_zero.2 unitsPerOne_pos.ne')
  obtain ⟨-, r, hCall, -, hFar⟩ :=
    ldexp_nearest_iff (m := .ofRank (1023 * blockSize)) (by decide) true ⟨-1022, by decide⟩
  obtain ⟨steps, left, inner, -, -, -, -, -, -, hLater⟩ := hFar (by decide)
  refine ⟨r, hCall, hLater ?_⟩
  rw [hValue, one_mul]

/-- The first step down to a little more than half a unit comes to a whole one, and the last step
then finds half a unit, and takes the even side. The nearest number is the other one. -/
theorem ldexp_rounds_twice :
    let m : Magnitude := .ofRank (949 * blockSize + 1)
    ldexp.operation.call [.float (.signed false m), .integer ⟨-1001, by decide⟩] =
        .ok (.float (.signed false .zero)) ∧
      Nearest (m.value * 2 ^ (-1001 : Int)) (.ofRank 1) ∧
        ¬Nearest (m.value * 2 ^ (-1001 : Int)) .zero := by
  intro m
  have hNearest : Nearest (m.value * 2 ^ (-1001 : Int)) (.ofRank 1) := by
    have hRound : round (m.units * 2 ^ (-1001 : Int).toNat) (2 ^ (- -1001 : Int).toNat) =
        ofRank 1 := by
      decide +kernel
    exact hRound ▸ nearest_scaled m (-1001)
  refine ⟨?_, hNearest, fun hZero => absurd (hNearest.unique hZero) (by decide)⟩
  have hScale := scale_down (m := m) (by decide) false 1 Nat.one_pos (show 1 ≤ scaleStep by decide)
  have hRound : round (round m.units (2 ^ (scaleStep * 1))).units (2 ^ 1) = .zero := by
    decide +kernel
  rw [hRound] at hScale
  exact congrArg (fun x : Binary64 => Except.ok (Value.float x)) hScale

end Builtin

end EmbeddedLisp
