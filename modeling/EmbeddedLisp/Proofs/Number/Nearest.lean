import EmbeddedLisp.Proofs.Number.Rounding
import Mathlib.Algebra.Order.Field.Rat
import Mathlib.Tactic.FieldSimp
import Mathlib.Tactic.Linarith
import Mathlib.Tactic.NormNum

/-! What it is to be nearest, over the rational numbers. Of all magnitudes the nearest one has the
least distance to a number, and where two have it, the one with an even rank. Infinity is in the
place of `2 ^ 1024`, one beyond the last finite magnitude, so that it is the nearest from half of
that distance on. There is one nearest magnitude to a number, and rounding gives it. -/
namespace EmbeddedLisp

namespace Magnitude

/-- The exact value. That of infinity is its place beyond the finite magnitudes. -/
def value (m : Magnitude) : ℚ := m.units / unitsPerOne

/-- The magnitude nearest to a number. A tie goes to the even rank. -/
structure Nearest (q : ℚ) (m : Magnitude) : Prop where
  least (other : Magnitude) : |m.value - q| ≤ |other.value - q|
  even (other : Magnitude) (hOther : other ≠ m) (hTie : |m.value - q| = |other.value - q|) :
    m.rank % 2 = 0

theorem unitsPerOne_pos : 0 < unitsPerOne := by
  unfold unitsPerOne
  generalize 1074 = places
  exact Nat.two_pow_pos places

theorem units_ofRank {shift place : Nat} (hPlace : place ≤ 2 * blockSize)
    (hShift : shift = 0 ∨ blockSize ≤ place) (hBounded : shift * blockSize + place ≤ infiniteRank) :
    (ofRank (shift * blockSize + place)).units = place * 2 ^ shift := by
  have hPos : 0 < blockSize := by decide
  rw [units, rank_ofRank, Nat.min_eq_left hBounded]
  by_cases hFirst : place < blockSize
  · obtain rfl : shift = 0 := hShift.resolve_right (Nat.not_le.2 hFirst)
    rw [Nat.zero_mul, Nat.zero_add, if_pos hFirst, Nat.pow_zero, Nat.mul_one]
  · obtain ⟨place, rfl⟩ := Nat.exists_eq_add_of_le (Nat.not_lt.1 hFirst)
    have hLater : ¬shift * blockSize + (blockSize + place) < blockSize := by omega
    rw [if_neg hLater, ← Nat.add_assoc, ← Nat.succ_mul, Nat.mul_add_mod_self_right,
      Nat.add_comm _ place, Nat.add_mul_div_right _ _ hPos]
    rcases Nat.lt_or_eq_of_le (show place ≤ blockSize by omega) with hLess | rfl
    · rw [Nat.mod_eq_of_lt hLess, Nat.div_eq_of_lt hLess, Nat.zero_add, Nat.succ_sub_one]
      rfl
    · rw [Nat.mod_self, Nat.div_self hPos, Nat.add_comm 1, Nat.succ_sub_one, Nat.add_zero]
      show blockSize * 2 ^ (shift + 1) = _
      rw [Nat.pow_succ]
      ring

/-- Every rank is a place in a block of numbers of one exponent. -/
theorem exists_place (m : Magnitude) :
    ∃ shift place, m.rank = shift * blockSize + place ∧ place < 2 * blockSize ∧
      (shift = 0 ∨ blockSize ≤ place) := by
  have hPos : 0 < blockSize := by decide
  have hPlace : m.rank % blockSize < blockSize := Nat.mod_lt _ hPos
  have hDivMod := Nat.div_add_mod m.rank blockSize
  rw [Nat.mul_comm] at hDivMod
  cases hBlock : m.rank / blockSize with
  | zero =>
    rw [hBlock, Nat.zero_mul] at hDivMod
    exact ⟨0, m.rank % blockSize, by omega, by omega, .inl rfl⟩
  | succ block =>
    rw [hBlock, Nat.succ_mul] at hDivMod
    exact ⟨block, blockSize + m.rank % blockSize, by omega, by omega, .inr (by omega)⟩

theorem exists_units (m : Magnitude) :
    ∃ shift place, m.rank = shift * blockSize + place ∧ place < 2 * blockSize ∧
      (shift = 0 ∨ blockSize ≤ place) ∧ m.units = place * 2 ^ shift := by
  obtain ⟨shift, place, hRank, hPlace, hShift⟩ := m.exists_place
  refine ⟨shift, place, hRank, hPlace, hShift, ?_⟩
  rw [← units_ofRank (Nat.le_of_lt hPlace) hShift (hRank ▸ m.bounded), ← hRank, ofRank_rank]

/-- The order of ranks is the order of values: a block ends where the next one begins. -/
theorem units_lt_units {m n : Magnitude} (hRank : m.rank < n.rank) : m.units < n.units := by
  obtain ⟨shift, place, hM, hPlace, hShift, hUnits⟩ := m.exists_units
  obtain ⟨shift', place', hN, hPlace', hShift', hUnits'⟩ := n.exists_units
  rw [hUnits, hUnits']
  rcases Nat.lt_trichotomy shift shift' with hLess | rfl | hMore
  · have hLater : blockSize ≤ place' := hShift'.resolve_left (by omega)
    calc place * 2 ^ shift
        < 2 * blockSize * 2 ^ shift := Nat.mul_lt_mul_of_pos_right hPlace (Nat.two_pow_pos _)
      _ = blockSize * 2 ^ (shift + 1) := by rw [Nat.pow_succ]; ring
      _ ≤ place' * 2 ^ shift' := Nat.mul_le_mul hLater (Nat.pow_le_pow_right (by decide) hLess)
  · exact Nat.mul_lt_mul_of_pos_right (by omega) (Nat.two_pow_pos _)
  · have hLater : blockSize ≤ place := hShift.resolve_left (by omega)
    have hBlocks : (shift' + 1) * blockSize ≤ shift * blockSize := Nat.mul_le_mul_right _ hMore
    rw [Nat.succ_mul] at hBlocks
    omega

theorem value_lt_value {m n : Magnitude} (hRank : m.rank < n.rank) : m.value < n.value := by
  have hPos : (0 : ℚ) < unitsPerOne := Nat.cast_pos.2 unitsPerOne_pos
  exact (div_lt_div_iff_of_pos_right hPos).2 (Nat.cast_lt.2 (units_lt_units hRank))

/-- Values are ordered as ranks are. -/
theorem value_le_value {m n : Magnitude} (hRank : m.rank ≤ n.rank) : m.value ≤ n.value := by
  rcases Nat.lt_or_eq_of_le hRank with hLess | hSame
  · exact le_of_lt (value_lt_value hLess)
  · exact le_of_eq (congrArg value (Magnitude.ext hSame))

section

variable {q : ℚ} {m m' lo hi : Magnitude}

/-- Between two magnitudes that are at the same distance there would be a nearer one, unless they
are next to each other. Then the rank of one of them is odd. -/
theorem Nearest.not_lt (h : Nearest q m) (h' : Nearest q m') : ¬m.rank < m'.rank := by
  intro hLess
  have hTie : |m.value - q| = |m'.value - q| := le_antisymm (h.least m') (h'.least m)
  have hEven := h.even m' (fun hSame => by simp [hSame] at hLess) hTie
  have hEven' := h'.even m (fun hSame => by simp [hSame] at hLess) hTie.symm
  have hBounded : m.rank + 1 ≤ infiniteRank := Nat.le_trans hLess m'.bounded
  have hBetween : (ofRank (m.rank + 1)).rank = m.rank + 1 := Nat.min_eq_left hBounded
  have hAbove : m.value < (ofRank (m.rank + 1)).value := value_lt_value (by omega)
  have hBelow : (ofRank (m.rank + 1)).value < m'.value := value_lt_value (by omega)
  have hNearer : |(ofRank (m.rank + 1)).value - q| < |m.value - q| := by
    have hLow := neg_abs_le (m.value - q)
    have hHigh := le_abs_self (m'.value - q)
    rw [← hTie] at hHigh
    exact abs_lt.2 ⟨by linarith, by linarith⟩
  exact absurd (h.least _) (not_le.2 hNearer)

theorem Nearest.unique (h : Nearest q m) (h' : Nearest q m') : m = m' :=
  Magnitude.ext (Nat.le_antisymm (Nat.not_lt.1 (h'.not_lt h)) (Nat.not_lt.1 (h.not_lt h')))

/-- Below the middle of two magnitudes the upper one is not the nearest. -/
theorem Nearest.middle_le (h : Nearest q m) (hLower : m'.value < m.value) :
    m'.value + m.value ≤ 2 * q := by
  by_contra hBelow
  have hNearer : |m'.value - q| < m.value - q := abs_lt.2 ⟨by linarith, by linarith⟩
  exact absurd (h.least m') (not_le.2 (lt_of_lt_of_le hNearer (le_abs_self _)))

/-- Above the middle of two magnitudes the lower one is not the nearest. -/
theorem Nearest.le_middle (h : Nearest q m) (hUpper : m.value < m'.value) :
    2 * q ≤ m.value + m'.value := by
  by_contra hAbove
  have hNearer : |m'.value - q| < q - m.value := abs_lt.2 ⟨by linarith, by linarith⟩
  rw [← neg_sub m.value q] at hNearer
  exact absurd (h.least m') (not_le.2 (lt_of_lt_of_le hNearer (neg_le_abs _)))

/-- The nearest magnitudes are in the order of the numbers. Numbers whose nearest magnitudes were in
the other order would be the middle of these, and the same number. -/
theorem Nearest.rank_le {q' : ℚ} (h : Nearest q m) (h' : Nearest q' m') (hLe : q ≤ q') :
    m.rank ≤ m'.rank := by
  by_contra hMore
  have hValues : m'.value < m.value := value_lt_value (Nat.not_le.1 hMore)
  have hBelow := h.middle_le hValues
  have hAbove := h'.le_middle hValues
  obtain rfl : q = q' := by linarith
  exact hMore (Nat.le_of_eq (congrArg rank (h.unique h')))

theorem nearest_infinity (hLarge : infinity.value ≤ q) : Nearest q infinity := by
  have hDistance (other : Magnitude) : |other.value - q| = q - other.value := by
    have hOther : other.value ≤ infinity.value := value_le_value other.bounded
    rw [abs_of_nonpos (by linarith), neg_sub]
  constructor
  · intro other
    have hOther : other.value ≤ infinity.value := value_le_value other.bounded
    rw [hDistance, hDistance]
    linarith
  · intro other _ _
    decide

variable (hNext : hi.rank = lo.rank + 1) (hLow : lo.value ≤ q) (hHigh : q ≤ hi.value)

include hNext hLow hHigh

theorem nearest_upper
    (hUpper : lo.value + hi.value < 2 * q ∨ lo.value + hi.value = 2 * q ∧ lo.rank % 2 = 1) :
    Nearest q hi := by
  have hSum : lo.value + hi.value ≤ 2 * q := hUpper.elim le_of_lt fun hTie => le_of_eq hTie.1
  have hHere : |hi.value - q| = hi.value - q := abs_of_nonneg (by linarith)
  constructor
  · intro other
    rw [hHere]
    rcases Nat.lt_or_ge other.rank hi.rank with hBelow | hAbove
    · have hOther : other.value ≤ lo.value := value_le_value (by omega)
      rw [abs_of_nonpos (by linarith)]
      linarith
    · have hOther := value_le_value hAbove
      rw [abs_of_nonneg (by linarith)]
      linarith
  · intro other hOther hTie
    rw [hHere] at hTie
    rcases Nat.lt_trichotomy other.rank hi.rank with hBelow | hSame | hAbove
    · have hLess : other.value ≤ lo.value := value_le_value (by omega)
      rw [abs_of_nonpos (by linarith)] at hTie
      rcases hUpper with hMore | ⟨-, hOdd⟩
      · linarith
      · omega
    · exact absurd (Magnitude.ext hSame) hOther
    · have hMore := value_lt_value hAbove
      rw [abs_of_nonneg (by linarith)] at hTie
      linarith

theorem nearest_lower
    (hLower : 2 * q < lo.value + hi.value ∨ lo.value + hi.value = 2 * q ∧ lo.rank % 2 = 0) :
    Nearest q lo := by
  have hSum : 2 * q ≤ lo.value + hi.value := hLower.elim le_of_lt fun hTie => le_of_eq hTie.1.symm
  have hHere : |lo.value - q| = q - lo.value := by rw [abs_of_nonpos (by linarith), neg_sub]
  constructor
  · intro other
    rw [hHere]
    rcases Nat.lt_or_ge lo.rank other.rank with hAbove | hBelow
    · have hOther : hi.value ≤ other.value := value_le_value (by omega)
      rw [abs_of_nonneg (by linarith)]
      linarith
    · have hOther := value_le_value hBelow
      rw [abs_of_nonpos (by linarith)]
      linarith
  · intro other hOther hTie
    rw [hHere] at hTie
    rcases Nat.lt_trichotomy other.rank lo.rank with hBelow | hSame | hAbove
    · have hLess := value_lt_value hBelow
      rw [abs_of_nonpos (by linarith)] at hTie
      linarith
    · exact absurd (Magnitude.ext hSame) hOther
    · have hMore : hi.value ≤ other.value := value_le_value (by omega)
      rw [abs_of_nonneg (by linarith)] at hTie
      rcases hLower with hLess | ⟨-, hEven⟩
      · linarith
      · exact hEven

end

section

variable {n d : Nat} (hPos : 0 < d)

include hPos

/-- The place of a quotient in its block, what is left of the numerator there, and to which side it
goes. -/
theorem exists_lower (n : Nat) :
    ∃ shift lower excess, n = d * 2 ^ shift * lower + excess ∧ excess < d * 2 ^ shift ∧
      lower < 2 * blockSize ∧ (shift = 0 ∨ blockSize ≤ lower) ∧
      round n d = ofRank (shift * blockSize +
        if d * 2 ^ shift < 2 * excess ∨ d * 2 ^ shift = 2 * excess ∧ lower % 2 = 1 then lower + 1
        else lower) := by
  obtain ⟨shift, hShift⟩ : ∃ shift, (n / d).log2 - 52 = shift := ⟨_, rfl⟩
  have hDistance : 0 < d * 2 ^ shift := Nat.mul_pos hPos (Nat.two_pow_pos _)
  refine ⟨shift, n / (d * 2 ^ shift), n % (d * 2 ^ shift), (Nat.div_add_mod _ _).symm,
    Nat.mod_lt _ hDistance, ?_, ?_, ?_⟩
  · have hBlocks : 2 * blockSize = 2 ^ 53 := by decide
    rw [hBlocks, ← Nat.div_div_eq_div_mul, Nat.div_lt_iff_lt_mul (Nat.two_pow_pos _), ← Nat.pow_add]
    exact Nat.lt_of_lt_of_le Nat.lt_log2_self (Nat.pow_le_pow_right (by decide) (by omega))
  · rw [or_iff_not_imp_left]
    intro hLater
    have hNonzero : n / d ≠ 0 := by
      intro hZero
      rw [hZero] at hShift
      exact hLater hShift.symm
    have hPlace : 52 + shift = (n / d).log2 := by omega
    rw [← Nat.div_div_eq_div_mul]
    refine (Nat.le_div_iff_mul_le (Nat.two_pow_pos _)).2 ?_
    calc blockSize * 2 ^ shift = 2 ^ (n / d).log2 := by rw [← hPlace, Nat.pow_add]; rfl
      _ ≤ n / d := Nat.log2_self_le hNonzero
  · subst hShift
    simp only [round, Bool.or_eq_true, Bool.and_eq_true, decide_eq_true_eq, beq_iff_eq]
    rfl

/-- The quotient is between the units of a rank and those of the next one, or not below those of
infinity. -/
theorem round_cases (n : Nat) :
    round n d = infinity ∧ infinity.units * d ≤ n ∨
      ∃ lo hi : Magnitude, hi.rank = lo.rank + 1 ∧ lo.units * d ≤ n ∧ n ≤ hi.units * d ∧
        round n d =
          if (lo.units + hi.units) * d < 2 * n ∨ (lo.units + hi.units) * d = 2 * n ∧
            lo.rank % 2 = 1 then hi
          else lo := by
  obtain ⟨shift, lower, excess, hQuotient, hExcess, hPlace, hShift, hRound⟩ := exists_lower hPos n
  rcases Nat.lt_or_ge (shift * blockSize + lower) infiniteRank with hFinite | hInfinite
  · right
    have hLoRank : (ofRank (shift * blockSize + lower)).rank = shift * blockSize + lower :=
      Nat.min_eq_left (Nat.le_of_lt hFinite)
    have hHiRank : (ofRank (shift * blockSize + (lower + 1))).rank =
        shift * blockSize + (lower + 1) :=
      Nat.min_eq_left hFinite
    have hLo : (ofRank (shift * blockSize + lower)).units * d = d * 2 ^ shift * lower := by
      rw [units_ofRank (Nat.le_of_lt hPlace) hShift (Nat.le_of_lt hFinite)]
      ring
    have hHi : (ofRank (shift * blockSize + (lower + 1))).units * d =
        d * 2 ^ shift * lower + d * 2 ^ shift := by
      have hUnits : (ofRank (shift * blockSize + (lower + 1))).units = (lower + 1) * 2 ^ shift :=
        units_ofRank hPlace (hShift.imp_right Nat.le_succ_of_le) hFinite
      rw [hUnits]
      ring
    have hParity : (shift * blockSize + lower) % 2 = lower % 2 := by
      rw [Nat.add_mod, Nat.mul_mod, show blockSize % 2 = 0 from by decide,
        Nat.mul_zero, Nat.zero_mod, Nat.zero_add, Nat.mod_mod]
    refine ⟨ofRank (shift * blockSize + lower), ofRank (shift * blockSize + (lower + 1)),
      ?_, ?_, ?_, ?_⟩
    · rw [hLoRank, hHiRank, Nat.add_assoc]
    · rw [hLo, hQuotient]
      exact Nat.le_add_right _ _
    · rw [hHi, hQuotient]
      omega
    · rw [hRound, Nat.add_mul, hLo, hHi, hLoRank, hParity, hQuotient]
      generalize d * 2 ^ shift * lower = base
      split
      · rw [if_pos (by omega)]
      · rw [if_neg (by omega)]
  · left
    obtain ⟨last, hLast⟩ : ∃ last, last + 1 = 2047 := ⟨2046, rfl⟩
    have hBlocks : infiniteRank = last * blockSize + blockSize := by
      rw [← Nat.succ_mul, Nat.succ_eq_add_one, hLast]
      rfl
    have hPower : last ≤ shift := by
      by_contra hLess
      have hBefore : (shift + 1) * blockSize ≤ last * blockSize := Nat.mul_le_mul_right _ (by omega)
      rw [Nat.succ_mul] at hBefore
      omega
    have hLater : blockSize ≤ lower := hShift.resolve_left (by omega)
    have hUnits : infinity.units = blockSize * 2 ^ last := by
      rw [infinity, hBlocks]
      exact units_ofRank (Nat.le_mul_of_pos_left _ (by decide)) (.inr (Nat.le_refl _))
        (Nat.le_of_eq hBlocks.symm)
    constructor
    · rw [hRound]
      refine Magnitude.ext (Nat.min_eq_right ?_)
      split <;> omega
    · calc infinity.units * d
          = d * (2 ^ last * blockSize) := by rw [hUnits]; ring
        _ ≤ d * (2 ^ shift * lower) :=
          Nat.mul_le_mul_left _ (Nat.mul_le_mul (Nat.pow_le_pow_right (by decide) hPower) hLater)
        _ = d * 2 ^ shift * lower := (Nat.mul_assoc _ _ _).symm
        _ ≤ n := hQuotient ▸ Nat.le_add_right _ _

/-- Rounding gives the nearest magnitude. -/
theorem nearest_round (n : Nat) : Nearest (n / d / unitsPerOne) (round n d) := by
  have hOne : (0 : ℚ) < unitsPerOne := Nat.cast_pos.2 unitsPerOne_pos
  have hDenominator : (0 : ℚ) < d := Nat.cast_pos.2 hPos
  have hScale : (0 : ℚ) < d * unitsPerOne := mul_pos hDenominator hOne
  have hValue (m : Magnitude) : m.value = (m.units * d : Nat) / (d * unitsPerOne : ℚ) := by
    rw [value, Nat.cast_mul, mul_comm (m.units : ℚ), mul_div_mul_left _ _ (ne_of_gt hDenominator)]
  rw [div_div]
  rcases round_cases hPos n with ⟨hRound, hLarge⟩ | ⟨lo, hi, hNext, hLow, hHigh, hRound⟩
  · rw [hRound]
    apply nearest_infinity
    rw [hValue]
    exact (div_le_div_iff_of_pos_right hScale).2 (Nat.cast_le.2 hLarge)
  · have hSum : lo.value + hi.value =
        ((lo.units + hi.units) * d : Nat) / (d * unitsPerOne : ℚ) := by
      rw [hValue, hValue, ← add_div, ← Nat.cast_add, Nat.add_mul]
    have hTwice : 2 * (n / (d * unitsPerOne) : ℚ) = (2 * n : Nat) / (d * unitsPerOne : ℚ) := by
      rw [Nat.cast_mul, Nat.cast_ofNat, mul_div_assoc]
    have hLow : lo.value ≤ n / (d * unitsPerOne) := by
      rw [hValue]
      exact (div_le_div_iff_of_pos_right hScale).2 (Nat.cast_le.2 hLow)
    have hHigh : (n / (d * unitsPerOne) : ℚ) ≤ hi.value := by
      rw [hValue]
      exact (div_le_div_iff_of_pos_right hScale).2 (Nat.cast_le.2 hHigh)
    have hSame {a b : Nat} (hEqual : a = b) : (a / (d * unitsPerOne) : ℚ) = b / (d * unitsPerOne) :=
      congrArg (fun k : Nat => (k / (d * unitsPerOne) : ℚ)) hEqual
    rw [hRound]
    split
    · rename_i hUpper
      refine nearest_upper hNext hLow hHigh ?_
      rw [hSum, hTwice]
      exact hUpper.imp (fun hLess => (div_lt_div_iff_of_pos_right hScale).2 (Nat.cast_lt.2 hLess))
        fun hTie => ⟨hSame hTie.1, hTie.2⟩
    · rename_i hLower
      refine nearest_lower hNext hLow hHigh ?_
      rw [hSum, hTwice]
      rcases Nat.lt_trichotomy (2 * n) ((lo.units + hi.units) * d) with hLess | hTie | hMore
      · exact .inl ((div_lt_div_iff_of_pos_right hScale).2 (Nat.cast_lt.2 hLess))
      · refine .inr ⟨hSame hTie.symm, ?_⟩
        have hNotOdd : lo.rank % 2 ≠ 1 := fun hOdd => hLower (.inr ⟨hTie.symm, hOdd⟩)
        omega
      · exact absurd (.inl hMore) hLower

theorem rank_round_mono {n n' : Nat} (hLe : n ≤ n') : (round n d).rank ≤ (round n' d).rank := by
  have hOne : (0 : ℚ) < unitsPerOne := Nat.cast_pos.2 unitsPerOne_pos
  have hDenominator : (0 : ℚ) < d := Nat.cast_pos.2 hPos
  refine (nearest_round hPos n).rank_le (nearest_round hPos n') ?_
  rw [div_le_div_iff_of_pos_right hOne, div_le_div_iff_of_pos_right hDenominator]
  exact Nat.cast_le.2 hLe

end

end Magnitude

namespace Decimal

open Magnitude (unitsPerOne)

/-- The number that a decimal number stands for. -/
def value (d : Decimal) : ℚ := d.significand * 10 ^ d.exponent

/-- A decimal number is read as the magnitude nearest to it. -/
theorem nearest_toMagnitude (d : Decimal) : d.toMagnitude.Nearest d.value := by
  have hOne : (unitsPerOne : ℚ) ≠ 0 := Nat.cast_ne_zero.2 (Nat.ne_of_gt Magnitude.unitsPerOne_pos)
  have hTen : (10 : ℚ) ≠ 0 := by norm_num
  have hExponent : d.exponent = (d.exponent.toNat : Int) - ((-d.exponent).toNat : Int) := by omega
  have hValue : d.value = (d.significand * 10 ^ d.exponent.toNat * unitsPerOne : Nat) /
      (10 ^ (-d.exponent).toNat : Nat) / unitsPerOne := by
    rw [div_right_comm, Nat.cast_mul, mul_div_cancel_right₀ _ hOne, value]
    conv_lhs => rw [hExponent]
    rw [zpow_sub₀ hTen, zpow_natCast, zpow_natCast, ← mul_div_assoc, Nat.cast_mul, Nat.cast_pow,
      Nat.cast_pow, Nat.cast_ofNat]
  rw [hValue, toMagnitude_eq_round]
  exact Magnitude.nearest_round (Nat.pow_pos (by decide)) _

end Decimal

end EmbeddedLisp
