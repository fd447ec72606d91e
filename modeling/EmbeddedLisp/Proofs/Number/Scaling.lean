import EmbeddedLisp.Proofs.Number.Nearest

/-! Rounding after a change of scale. To double a magnitude is exact until it is infinite. To halve
it is exact as long as the result is not among the first magnitudes, which are one unit apart. From
there on it is rounding to a whole number of units. A second rounding, after halving again, gives
what rounding at once gives, except where the first one has come to the middle between two units
without being there. -/
namespace EmbeddedLisp

namespace Magnitude

/-- Doubling goes on exactly until it comes to infinity. -/
theorem units_round_mul_two_pow (m : Magnitude) (k : Nat) :
    (round (m.units * 2 ^ k) 1).units = m.units * 2 ^ k ∨ round (m.units * 2 ^ k) 1 = infinity := by
  obtain ⟨shift, place, -, hPlace, -, hUnits⟩ := m.exists_units
  have hProduct : m.units * 2 ^ k = place * 2 ^ (shift + k) := by
    rw [hUnits, Nat.mul_assoc, ← Nat.pow_add]
  obtain ⟨shift', lower, excess, hQuotient, hExcess, hLower, hShift', hRound⟩ :=
    exists_lower Nat.one_pos (m.units * 2 ^ k)
  rw [Nat.one_mul] at hQuotient hExcess
  have hDivides : 2 ^ shift' ∣ m.units * 2 ^ k := by
    rw [hProduct]
    refine Dvd.dvd.mul_left (Nat.pow_dvd_pow 2 ?_) place
    by_contra hLess
    have hLater : blockSize ≤ lower := hShift'.resolve_left (by omega)
    have hBelow : place * 2 ^ (shift + k) < blockSize * 2 ^ shift' :=
      calc place * 2 ^ (shift + k)
          < 2 * blockSize * 2 ^ (shift + k) :=
          Nat.mul_lt_mul_of_pos_right hPlace (Nat.two_pow_pos _)
        _ = blockSize * 2 ^ (shift + k + 1) := by rw [Nat.pow_succ]; ring
        _ ≤ blockSize * 2 ^ shift' :=
          Nat.mul_le_mul_left _ (Nat.pow_le_pow_right (by decide) (by omega))
    have hAbove : blockSize * 2 ^ shift' ≤ 2 ^ shift' * lower := by
      rw [Nat.mul_comm]
      exact Nat.mul_le_mul_left _ hLater
    omega
  have hNone : excess = 0 := by
    rw [hQuotient, Nat.dvd_add_right (Nat.dvd_mul_right _ _)] at hDivides
    exact Nat.eq_zero_of_dvd_of_lt hDivides hExcess
  have hExact : m.units * 2 ^ k = lower * 2 ^ shift' := by
    rw [hQuotient, hNone, Nat.add_zero, Nat.mul_comm]
  have hPlaceOf : round (m.units * 2 ^ k) 1 = ofRank (shift' * blockSize + lower) := by
    have hPos := Nat.two_pow_pos shift'
    rw [hRound, if_neg (by omega)]
  rcases Nat.lt_or_ge infiniteRank (shift' * blockSize + lower) with hBeyond | hBefore
  · right
    rw [hPlaceOf]
    exact Magnitude.ext (Nat.min_eq_right (Nat.le_of_lt hBeyond))
  · left
    rw [hPlaceOf, hExact]
    exact units_ofRank (Nat.le_of_lt hLower) hShift' hBefore

/-- Halving is exact until it comes to the first magnitudes. -/
theorem units_round_two_pow (m : Magnitude) (k : Nat) :
    (round m.units (2 ^ k)).units * 2 ^ k = m.units ∨ m.units < 2 ^ 53 * 2 ^ k := by
  obtain ⟨shift, place, hRank, hPlace, hShift, hUnits⟩ := m.exists_units
  rcases Nat.lt_or_ge shift k with hLess | hLe
  · right
    rw [hUnits]
    exact Nat.mul_lt_mul'' hPlace (Nat.pow_lt_pow_right (by decide) hLess)
  · left
    obtain ⟨left, rfl⟩ := Nat.exists_eq_add_of_le hLe
    have hBounded : left * blockSize + place ≤ infiniteRank := by
      have hBlocks : left * blockSize ≤ (k + left) * blockSize :=
        Nat.mul_le_mul_right _ (Nat.le_add_left _ _)
      have hLast := m.bounded
      omega
    have hHalved := units_ofRank (Nat.le_of_lt hPlace) (hShift.imp_left (by omega)) hBounded
    have hScaled : m.units = (ofRank (left * blockSize + place)).units * 2 ^ k := by
      rw [hHalved, hUnits, Nat.mul_assoc, ← Nat.pow_add, Nat.add_comm left]
    have hRound : round m.units (2 ^ k) = ofRank (left * blockSize + place) := by
      rw [← round_units (ofRank (left * blockSize + place))]
      exact round_eq_of_cross (Nat.two_pow_pos _) Nat.one_pos (by rw [Nat.mul_one, hScaled])
    rw [hRound, hScaled]

/-- The first magnitudes are one unit apart. -/
theorem round_of_small {d quotient excess : Nat} (hQuotient : quotient < 2 ^ 53)
    (hExcess : excess < d) :
    round (d * quotient + excess) d =
      ofRank (if d < 2 * excess ∨ d = 2 * excess ∧ quotient % 2 = 1 then quotient + 1
        else quotient) := by
  have hDiv : (d * quotient + excess) / d = quotient := by
    rw [Nat.mul_add_div (by omega), Nat.div_eq_of_lt hExcess, Nat.add_zero]
  have hMod : (d * quotient + excess) % d = excess := by
    rw [Nat.mul_add_mod, Nat.mod_eq_of_lt hExcess]
  have hShift : quotient.log2 - 52 = 0 := by
    refine Nat.sub_eq_zero_of_le (Nat.le_of_lt_succ ?_)
    by_cases hZero : quotient = 0
    · simp [hZero]
    · exact (Nat.log2_lt hZero).2 hQuotient
  simp [round, hDiv, hMod, hShift]

theorem units_of_small {quotient : Nat} (hQuotient : quotient ≤ 2 ^ 53) :
    (ofRank quotient).units = quotient := by
  have hBounded : 0 * blockSize + quotient ≤ infiniteRank := by
    rw [Nat.zero_mul, Nat.zero_add]
    exact Nat.le_trans hQuotient (by decide)
  have hUnits : (ofRank (0 * blockSize + quotient)).units = quotient * 2 ^ 0 :=
    units_ofRank hQuotient (.inl rfl) hBounded
  rwa [Nat.zero_mul, Nat.zero_add, Nat.pow_zero, Nat.mul_one] at hUnits

/-- Rounding to whole units goes no farther than half a unit. -/
theorem round_near {n d : Nat} (hPos : 0 < d) (hSmall : n < 2 ^ 53 * d) :
    (round n d).units ≤ 2 ^ 53 ∧ 2 * ((round n d).units * d) ≤ 2 * n + d ∧
      2 * n ≤ 2 * ((round n d).units * d) + d := by
  have hQuotient : n / d < 2 ^ 53 := (Nat.div_lt_iff_lt_mul hPos).2 hSmall
  have hExcess : n % d < d := Nat.mod_lt _ hPos
  have hParts : d * (n / d) + n % d = n := Nat.div_add_mod n d
  have hRound := round_of_small hQuotient hExcess
  rw [hParts] at hRound
  rw [hRound]
  split
  · have hUnits : (ofRank (n / d + 1)).units = n / d + 1 := units_of_small hQuotient
    rw [hUnits, Nat.add_mul, Nat.one_mul, Nat.mul_comm (n / d)]
    omega
  · have hUnits : (ofRank (n / d)).units = n / d := units_of_small (Nat.le_of_lt hQuotient)
    rw [hUnits, Nat.mul_comm (n / d)]
    omega

/-- Whether a number of units, rounded once from `n / d`, misleads a second rounding to multiples of
`2 * p`: it is in the middle between two of these multiples, where `n / d` is not, and the even one
of the two is the farther one. -/
def Misleads (n d p a : Nat) : Prop :=
  ∃ lower, a = (2 * lower + 1) * p ∧ (n < a * d ∧ lower % 2 = 1 ∨ a * d < n ∧ lower % 2 = 0)

section

variable {n d p a lower excess : Nat}

theorem misleads_iff (hParts : a = 2 * p * lower + excess) (hExcess : excess < 2 * p) :
    Misleads n d p a ↔ excess = p ∧ (n < a * d ∧ lower % 2 = 1 ∨ a * d < n ∧ lower % 2 = 0) := by
  constructor
  · rintro ⟨lower', hMiddle, hSide⟩
    have hSame : lower' = lower := by
      have hDiv := congrArg (· / (2 * p)) (hMiddle.symm.trans hParts)
      have hMiddleParts : (2 * lower' + 1) * p = 2 * p * lower' + p := by ring
      simp only [hMiddleParts] at hDiv
      rwa [Nat.mul_add_div (by omega), Nat.mul_add_div (by omega), Nat.div_eq_of_lt hExcess,
        Nat.div_eq_of_lt (by omega), Nat.add_zero, Nat.add_zero] at hDiv
    subst hSame
    have hMiddleParts : a = 2 * p * lower' + p := by rw [hMiddle]; ring
    exact ⟨by omega, hSide⟩
  · rintro ⟨rfl, hSide⟩
    exact ⟨lower, by rw [hParts]; ring, hSide⟩

theorem ofRank_succ_ne (hSmall : lower < 2 ^ 53) : ofRank (lower + 1) ≠ ofRank lower := by
  intro hSame
  have hUnits := congrArg units hSame
  rw [units_of_small hSmall, units_of_small (Nat.le_of_lt hSmall)] at hUnits
  omega

theorem mul_add_le_mul {i j : Nat} (hLess : i < j) (d : Nat) : i * d + d ≤ j * d := by
  rw [← Nat.succ_mul]
  exact Nat.mul_le_mul_right d hLess

/-- Less than half a unit below a multiple of `2 * p` units, that multiple is the nearest one. -/
theorem round_of_before (hp : 0 < p) (hLower : lower < 2 ^ 53) (hBefore : n < d * (2 * p) * lower)
    (hNear : 2 * (d * (2 * p) * lower) ≤ 2 * n + d) : round n (d * (2 * p)) = ofRank lower := by
  obtain ⟨earlier, rfl⟩ : ∃ earlier, lower = earlier + 1 :=
    Nat.exists_eq_succ_of_ne_zero fun hZero => by simp [hZero] at hBefore
  obtain ⟨short, hShort⟩ := Nat.exists_eq_add_of_lt hBefore
  have hWidth : d * (2 * p) = 2 * (p * d) := by ring
  have hUnit : 0 * d + d ≤ p * d := mul_add_le_mul hp d
  rw [Nat.mul_succ] at hShort hNear
  have hHere : n = d * (2 * p) * earlier + (d * (2 * p) - (short + 1)) := by omega
  have hQuotient : earlier < 2 ^ 53 := by omega
  have hShortfall : d * (2 * p) - (short + 1) < d * (2 * p) := by omega
  rw [hHere, round_of_small hQuotient hShortfall, if_pos (by omega)]

/-- Behind a multiple of `2 * p` units, one rounding and two see the same side of the middle, unless
it is the first of the two that has come to the middle. -/
theorem round_behind_iff {behind : Nat} (hd : 0 < d) (hLower : lower < 2 ^ 53)
    (hExcess : excess < 2 * p) (hBehind : behind < d * (2 * p))
    (hLow : 2 * (excess * d) ≤ 2 * behind + d) (hHigh : 2 * behind ≤ 2 * (excess * d) + d) :
    round (d * (2 * p) * lower + behind) (d * (2 * p)) = round (2 * p * lower + excess) (2 * p) ↔
      ¬(excess = p ∧
        (behind < excess * d ∧ lower % 2 = 1 ∨ excess * d < behind ∧ lower % 2 = 0)) := by
  have hWidth : d * (2 * p) = 2 * (p * d) := by ring
  rw [round_of_small hLower hBehind, round_of_small hLower hExcess]
  rcases Nat.lt_trichotomy excess p with hLess | rfl | hMore
  · have hGap := mul_add_le_mul hLess d
    rw [if_neg (by omega), if_neg (by omega)]
    exact iff_of_true rfl (by omega)
  · -- The second rounding finds a tie, and takes the even side of it.
    have hTie : (2 * excess < 2 * excess ∨ 2 * excess = 2 * excess ∧ lower % 2 = 1) ↔
        lower % 2 = 1 := by
      omega
    have hApart : ofRank (lower + 1) ≠ ofRank lower := ofRank_succ_ne hLower
    rw [hWidth, if_congr hTie rfl rfl]
    rcases Nat.mod_two_eq_zero_or_one lower with hEven | hOdd
    · have hDown : ¬lower % 2 = 1 := by omega
      rw [if_neg hDown]
      by_cases hFarther : excess * d < behind
      · rw [if_pos (by omega)]
        exact iff_of_false hApart (by omega)
      · rw [if_neg (by omega)]
        exact iff_of_true rfl (by omega)
    · rw [if_pos hOdd]
      by_cases hFarther : behind < excess * d
      · rw [if_neg (by omega)]
        exact iff_of_false hApart.symm (by omega)
      · rw [if_pos (by omega)]
        exact iff_of_true rfl (by omega)
  · have hGap := mul_add_le_mul hMore d
    rw [if_pos (by omega), if_pos (by omega)]
    exact iff_of_true rfl (by omega)

/-- After a rounding to whole units a second one gives what one rounding gives, unless it is
misled. -/
theorem round_twice_iff (hp : 0 < p) (hSmall : a ≤ 2 ^ 53) (hLow : 2 * (a * d) ≤ 2 * n + d)
    (hHigh : 2 * n ≤ 2 * (a * d) + d) (hd : 0 < d) :
    round n (d * (2 * p)) = round a (2 * p) ↔ ¬Misleads n d p a := by
  obtain ⟨lower, excess, hParts, hExcess⟩ : ∃ lower excess, a = 2 * p * lower + excess ∧
      excess < 2 * p :=
    ⟨a / (2 * p), a % (2 * p), (Nat.div_add_mod _ _).symm, Nat.mod_lt _ (by omega)⟩
  have hLower : lower < 2 ^ 53 := by
    have hTwice : 2 * lower ≤ 2 * p * lower := Nat.mul_le_mul_right _ (by omega)
    omega
  have hUnits : a * d = d * (2 * p) * lower + excess * d := by rw [hParts]; ring
  rw [misleads_iff hParts hExcess, hUnits, hParts]
  rw [hUnits] at hLow hHigh
  rcases Nat.lt_or_ge n (d * (2 * p) * lower) with hBefore | hBehind
  · -- The first rounding went up to a multiple of `2 * p`, and the second one stays there.
    have hNone : excess = 0 := by
      by_contra hSome
      have hGap := mul_add_le_mul (Nat.pos_of_ne_zero hSome) d
      omega
    rw [hNone, Nat.zero_mul, Nat.add_zero] at hLow
    rw [round_of_before hp hLower hBefore hLow, hNone, round_of_small hLower (by omega),
      if_neg (by omega)]
    exact iff_of_true rfl (by omega)
  · obtain ⟨behind, rfl⟩ := Nat.exists_eq_add_of_le hBehind
    have hWithin : behind < d * (2 * p) := by
      have hGap := mul_add_le_mul hExcess d
      rw [Nat.mul_comm (2 * p) d] at hGap
      omega
    rw [round_behind_iff hd hLower hExcess hWithin (by omega) (by omega)]
    simp only [Nat.add_lt_add_iff_left]

end

/-- Where the first rounding is exact, the second one is the only one. -/
theorem round_round_of_exact {m : Magnitude} {k : Nat}
    (hExact : (round m.units (2 ^ k)).units * 2 ^ k = m.units) (k' : Nat) :
    round (round m.units (2 ^ k)).units (2 ^ k') = round m.units (2 ^ (k + k')) := by
  refine round_eq_of_cross (Nat.two_pow_pos _) (Nat.two_pow_pos _) ?_
  conv_rhs => rw [← hExact]
  rw [Nat.pow_add, Nat.mul_assoc]

/-- Where the first rounding is not exact, halving often enough leaves nothing. -/
theorem round_round_of_far (m : Magnitude) (k : Nat) {k' : Nat} (hFar : 54 ≤ k') :
    round (round m.units (2 ^ k)).units (2 ^ k') = round m.units (2 ^ (k + k')) := by
  rcases m.units_round_two_pow k with hExact | hSmall
  · exact round_round_of_exact hExact k'
  · have hInner := (round_near (Nat.two_pow_pos k) hSmall).1
    have hPower : 2 ^ 54 ≤ 2 ^ k' := Nat.pow_le_pow_right (by decide) hFar
    have hHalf : 2 * m.units ≤ 2 ^ (k + k') :=
      calc 2 * m.units ≤ 2 * (2 ^ 53 * 2 ^ k) := Nat.mul_le_mul_left _ (Nat.le_of_lt hSmall)
        _ = 2 ^ k * 2 ^ 54 := by ring
        _ ≤ 2 ^ k * 2 ^ k' := Nat.mul_le_mul_left _ hPower
        _ = 2 ^ (k + k') := (Nat.pow_add _ _ _).symm
    rw [round_eq_zero (Nat.two_pow_pos _) hHalf]
    exact round_eq_zero (Nat.two_pow_pos _) (by omega)

theorem value_mul_two_zpow (m : Magnitude) (exponent : Int) :
    m.value * 2 ^ exponent =
      (m.units * 2 ^ exponent.toNat : Nat) / (2 ^ (-exponent).toNat : Nat) / unitsPerOne := by
  have hExponent : exponent = (exponent.toNat : Int) - ((-exponent).toNat : Int) := by omega
  conv_lhs => rw [hExponent]
  rw [zpow_sub₀ two_ne_zero, zpow_natCast, zpow_natCast, value, div_mul_eq_mul_div,
    mul_div_assoc', Nat.cast_mul, Nat.cast_pow, Nat.cast_pow, Nat.cast_ofNat]

/-- The magnitude nearest to another one times a power of two. -/
theorem nearest_scaled (m : Magnitude) (exponent : Int) :
    Nearest (m.value * 2 ^ exponent)
      (round (m.units * 2 ^ exponent.toNat) (2 ^ (-exponent).toNat)) := by
  rw [value_mul_two_zpow]
  exact nearest_round (Nat.two_pow_pos _) _

theorem value_div_two_pow (m : Magnitude) (k : Nat) :
    m.value * 2 ^ (-(k : Int)) = m.units / 2 ^ k / unitsPerOne := by
  rw [value, zpow_neg, zpow_natCast, ← div_eq_mul_inv, div_right_comm]

theorem nearest_halved (m : Magnitude) (k : Nat) :
    Nearest (m.value * 2 ^ (-(k : Int))) (round m.units (2 ^ k)) := by
  rw [value_div_two_pow]
  exact_mod_cast nearest_round (Nat.two_pow_pos k) m.units

/-- Whether rounding a number misleads a second rounding: what it comes to is in the middle between
two units where the number itself is not, and the even one of these units is the farther one. -/
def Misled (exact once : ℚ) : Prop :=
  ∃ lower : Nat, once * unitsPerOne = lower + 1 / 2 ∧
    (exact < once ∧ lower % 2 = 1 ∨ once < exact ∧ lower % 2 = 0)

theorem misled_iff (m inner : Magnitude) (k places : Nat) :
    Misled (m.value * 2 ^ (-(k + (places + 1) : Nat) : Int))
      (inner.value * 2 ^ (-(places + 1 : Nat) : Int)) ↔
      Misleads m.units (2 ^ k) (2 ^ places) inner.units := by
  have hOne : (0 : ℚ) < unitsPerOne := Nat.cast_pos.2 unitsPerOne_pos
  have hPower (j : Nat) : (0 : ℚ) < 2 ^ j := pow_pos two_pos j
  have hCommon : (inner.units : ℚ) / 2 ^ (places + 1) =
      (inner.units * 2 ^ k : Nat) / 2 ^ (k + (places + 1)) := by
    rw [pow_add 2 k, Nat.cast_mul, Nat.cast_pow, Nat.cast_ofNat, mul_comm (inner.units : ℚ),
      mul_div_mul_left _ _ (ne_of_gt (hPower k))]
  rw [Misled, Misleads, value_div_two_pow, value_div_two_pow, div_mul_cancel₀ _ (ne_of_gt hOne)]
  refine exists_congr fun lower => and_congr ?_ (or_congr (and_congr_left' ?_) (and_congr_left' ?_))
  · have hMiddle : ((lower : ℚ) + 1 / 2) * 2 ^ (places + 1) =
        ((2 * lower + 1) * 2 ^ places : Nat) := by
      push_cast
      ring
    rw [div_eq_iff (ne_of_gt (hPower _)), hMiddle, Nat.cast_inj]
  · rw [div_lt_div_iff_of_pos_right hOne, hCommon, div_lt_div_iff_of_pos_right (hPower _),
      Nat.cast_lt]
  · rw [div_lt_div_iff_of_pos_right hOne, hCommon, div_lt_div_iff_of_pos_right (hPower _),
      Nat.cast_lt]

/-- Two roundings give the nearest magnitude exactly if the first one does not mislead the
second. -/
theorem nearest_twice_iff (m : Magnitude) (k places : Nat) :
    let inner := round m.units (2 ^ k)
    Nearest (m.value * 2 ^ (-(k + (places + 1) : Nat) : Int))
      (round inner.units (2 ^ (places + 1))) ↔
      ¬Misled (m.value * 2 ^ (-(k + (places + 1) : Nat) : Int))
      (inner.value * 2 ^ (-(places + 1 : Nat) : Int)) := by
  intro inner
  have hAtOnce : Nearest (m.value * 2 ^ (-(k + (places + 1) : Nat) : Int))
      (round m.units (2 ^ (k + (places + 1)))) :=
    nearest_halved m _
  have hSame : Nearest (m.value * 2 ^ (-(k + (places + 1) : Nat) : Int))
    (round inner.units (2 ^ (places + 1))) ↔
      round m.units (2 ^ (k + (places + 1))) = round inner.units (2 ^ (places + 1)) :=
    ⟨fun hNearest => hAtOnce.unique hNearest, fun hEqual => hEqual ▸ hAtOnce⟩
  rw [hSame, misled_iff]
  rcases m.units_round_two_pow k with hExact | hSmall
  · refine iff_of_true (round_round_of_exact hExact _).symm ?_
    rintro ⟨lower, -, hSide⟩
    have hHere : inner.units * 2 ^ k = m.units := hExact
    omega
  · obtain ⟨hInner, hLow, hHigh⟩ := round_near (Nat.two_pow_pos k) hSmall
    have hDenominator : 2 ^ (k + (places + 1)) = 2 ^ k * (2 * 2 ^ places) := by ring
    have hTwice : 2 ^ (places + 1) = 2 * 2 ^ places := by ring
    rw [hDenominator, hTwice]
    exact round_twice_iff (Nat.two_pow_pos _) hInner hLow hHigh (Nat.two_pow_pos _)

theorem zpow_div_unitsPerOne (k : Nat) :
    (2 ^ k : ℚ) / unitsPerOne = 2 ^ ((k : Int) - (1074 : Nat)) := by
  rw [Decimal.unitsPerOne_eq, Nat.cast_pow, Nat.cast_ofNat, zpow_sub₀ two_ne_zero,
    zpow_natCast, zpow_natCast]

/-- A result that is not among the first magnitudes is not misled. -/
theorem not_misled_of_le {m : Magnitude} {k places : Nat}
    (hLarge : 2 ^ (-1022 : Int) ≤ m.value * 2 ^ (-(k + (places + 1) : Nat) : Int)) :
    ¬Misled (m.value * 2 ^ (-(k + (places + 1) : Nat) : Int))
      ((round m.units (2 ^ k)).value * 2 ^ (-(places + 1 : Nat) : Int)) := by
  have hOne : (0 : ℚ) < unitsPerOne := Nat.cast_pos.2 unitsPerOne_pos
  have hPower : (0 : ℚ) < 2 ^ (k + (places + 1)) := pow_pos two_pos _
  have hUnits : 2 ^ 52 * 2 ^ (k + (places + 1)) ≤ m.units := by
    have hFirst : (2 ^ 52 : ℚ) / unitsPerOne = 2 ^ (-1022 : Int) := zpow_div_unitsPerOne 52
    rw [value_div_two_pow, ← hFirst, div_le_div_iff_of_pos_right hOne, le_div_iff₀ hPower] at hLarge
    exact_mod_cast hLarge
  rw [misled_iff]
  rintro ⟨lower, -, hSide⟩
  rcases m.units_round_two_pow k with hExact | hSmall
  · omega
  · have hMore : 2 ^ 53 * 2 ^ k ≤ 2 ^ 52 * 2 ^ (k + (places + 1)) :=
      calc 2 ^ 53 * 2 ^ k = 2 ^ 52 * 2 ^ (k + 1) := by ring
        _ ≤ 2 ^ 52 * 2 ^ (k + (places + 1)) :=
          Nat.mul_le_mul_left _ (Nat.pow_le_pow_right (by decide) (by omega))
    omega

end Magnitude

end EmbeddedLisp
