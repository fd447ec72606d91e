import EmbeddedLisp.Procedure.Library
import EmbeddedLisp.Proofs.Number.Rounding
import Mathlib.Data.Nat.Factorial.Basic

/-! The loops of the builtin procedures, round by round. The product of a factorial outgrows the
integers, a number that is scaled comes to zero or infinity, and a sum ends with its list. So each
loop has given the answer of its procedure after a number of rounds that is known beforehand. -/
namespace EmbeddedLisp

namespace Loop

variable {σ α : Type} {round : σ → σ ⊕ α}

/-- The answer of a loop within so many rounds. A round goes on to another state or gives the
answer. -/
def run (round : σ → σ ⊕ α) : (rounds : Nat) → σ → Option α
  | 0, _ => none
  | rounds + 1, state =>
    match round state with
    | .inl next => run round rounds next
    | .inr answer => some answer

theorem run_of_next {state next : σ} (rounds : Nat) (hNext : round state = .inl next) :
    run round (rounds + 1) state = run round rounds next := by
  rw [run, hNext]

theorem run_of_answer {state : σ} {answer : α} (rounds : Nat)
    (hAnswer : round state = .inr answer) :
    run round (rounds + 1) state = some answer := by
  rw [run, hAnswer]

end Loop

namespace Fixnum

open Nat (factorial)

/-- Multiplies the product of the factors before `next` by `next`, up to the factor `n`. -/
def factorialRound (n : Nat) : Nat × Fixnum → (Nat × Fixnum) ⊕ Option Fixnum
  | (next, product) =>
    if next ≤ n then
      match ofInt? (product.toInt * next) with
      | some product => .inl (next + 1, product)
      | none => .inr none
    else .inr (some product)

/-- The product of the factors up to 21 is no integer of the language, so there is no round for the
one behind it. -/
theorem run_factorialRound (n : Nat) {rounds next : Nat} {product : Fixnum}
    (hRounds : rounds + (next + 1) = 22) (hProduct : product.toInt = factorial next) :
    Loop.run (factorialRound n) rounds (next + 1, product) =
      some (productFrom (n - next) (next + 1) product) := by
  induction rounds generalizing next product with
  | zero =>
    obtain rfl : next = 21 := by omega
    have hBound := product.inRange.2
    rw [hProduct] at hBound
    exact absurd hBound (by decide)
  | succ rounds ih =>
    by_cases hMore : next + 1 ≤ n
    · obtain ⟨count, hCount⟩ : ∃ count, n - next = count + 1 := ⟨n - next - 1, by omega⟩
      have hRound : factorialRound n (next + 1, product) = _ := if_pos hMore
      rw [hCount, productFrom]
      cases hNext : ofInt? (product.toInt * (next + 1 : Nat)) with
      | none =>
        rw [hNext] at hRound
        exact Loop.run_of_answer _ hRound
      | some larger =>
        have hLarger : larger.toInt = factorial (next + 1) := by
          rw [ofInt?_eq_some_iff.1 hNext, hProduct, Nat.factorial_succ,
            ← Nat.cast_mul, Nat.mul_comm]
        have hRest : n - (next + 1) = count := by omega
        rw [hNext] at hRound
        rw [Loop.run_of_next _ hRound, ih (by omega) hLarger, hRest]
        rfl
    · have hNone : n - next = 0 := by omega
      rw [hNone, productFrom]
      exact Loop.run_of_answer _ (if_neg hMore)

/-- No factorial takes more than 20 rounds. -/
theorem factorial?_rounds (n : Nat) : Loop.run (factorialRound n) 20 (2, 1) = some (factorial? n) :=
  run_factorialRound n rfl rfl

end Fixnum

namespace Binary64

open Magnitude (round blockSize infiniteRank)

/-- Makes one step of the exponent, unless one is enough or the number stays as it is. -/
def scaleRound : Binary64 × Int → (Binary64 × Int) ⊕ Binary64
  | (x, exponent) =>
    if exponent.natAbs ≤ scaleStep then .inr (x.scaleOnce exponent)
    else if x.isZero || !x.isFinite then .inr x
    else if exponent < 0 then .inl (x.scaleOnce (-scaleStep), exponent + scaleStep)
    else .inl (x.scaleOnce scaleStep, exponent - scaleStep)

/-- The step that is made for an exponent. -/
def stepToward (exponent : Int) : Int := if exponent < 0 then -scaleStep else scaleStep

section

variable {x : Binary64} {exponent : Int} (hFar : ¬exponent.natAbs ≤ scaleStep)

include hFar

theorem stepToward_sub : stepToward (exponent - stepToward exponent) = stepToward exponent := by
  unfold stepToward
  split <;> split <;> omega

variable (hMoves : ¬(x.isZero || !x.isFinite))

include hMoves

theorem scaleRound_of_far : scaleRound (x, exponent) =
    .inl (x.scaleOnce (stepToward exponent), exponent - stepToward exponent) := by
  rw [scaleRound, if_neg hFar, if_neg hMoves, stepToward]
  split
  · rw [Int.sub_neg]
  · rfl

theorem scale_of_far :
    x.scale exponent = (x.scaleOnce (stepToward exponent)).scale
      (exponent - stepToward exponent) := by
  rw [scale, if_neg hFar, if_neg hMoves, stepToward]
  split
  · rw [Int.sub_neg]
  · rfl

end

/-- Whether a number stays as it is under scaling, or else its magnitude is in a range. -/
def SettledOr (range : Magnitude → Prop) : Binary64 → Prop
  | .nan _ => True
  | .signed _ m => m.isZero ∨ m.isInfinite ∨ range m

theorem settledOr_of_nonzero {range : Magnitude → Prop} (hRange : ∀ m, ¬m.isZero → range m)
    (x : Binary64) :
    SettledOr range x := by
  cases x with
  | nan => trivial
  | signed s m => exact (em m.isZero).imp_right fun hNonzero => .inr (hRange m hNonzero)

theorem SettledOr.range {range : Magnitude → Prop} {x : Binary64} (hSettled : SettledOr range x)
    (hMoves : ¬(x.isZero || !x.isFinite)) : ∃ s m, x = .signed s m ∧ range m := by
  cases x with
  | nan => exact (hMoves rfl).elim
  | signed s m =>
    rcases hSettled with hZero | hInfinite | hRange
    · simp [isZero, hZero] at hMoves
    · simp [isFinite, isInfinite, isNaN, hInfinite] at hMoves
    · exact ⟨s, m, rfl, hRange⟩

theorem SettledOr.imp {range range' : Magnitude → Prop} {x : Binary64}
    (hImp : ∀ m, range m → range' m) (hSettled : SettledOr range x) : SettledOr range' x := by
  cases x with
  | nan => trivial
  | signed s m => exact Or.imp_right (Or.imp_right (hImp m)) hSettled

/-- If steps come from each range to the next and only zero is in the last one, the loop comes to
its end. -/
theorem run_scaleRound {ranges : Nat → Magnitude → Prop} {step : Int}
    (hLast : ∀ m, ranges 0 m → m.isZero)
    (hStep : ∀ {rounds m}, ranges (rounds + 1) m →
      ∀ s, SettledOr (ranges rounds) (scaleOnce (.signed s m) step)) {rounds : Nat} {x : Binary64}
    {exponent : Int} (hToward : stepToward exponent = step) (hRange : SettledOr (ranges rounds) x) :
    Loop.run scaleRound (rounds + 1) (x, exponent) = some (x.scale exponent) := by
  induction rounds generalizing x exponent with
  | zero =>
    have hSettled : (x.isZero || !x.isFinite) = true := by
      by_contra hMoves
      obtain ⟨_, m, rfl, hLeft⟩ := hRange.range hMoves
      simp [isZero, hLast m hLeft] at hMoves
    rw [scale, hSettled, if_pos rfl]
    refine Loop.run_of_answer _ ?_
    rw [scaleRound, hSettled, if_pos rfl]
    split <;> rfl
  | succ rounds ih =>
    by_cases hNear : exponent.natAbs ≤ scaleStep
    · rw [scale, if_pos hNear]
      exact Loop.run_of_answer _ (if_pos hNear)
    by_cases hSettled : (x.isZero || !x.isFinite) = true
    · rw [scale, if_neg hNear, if_pos hSettled]
      exact Loop.run_of_answer _ ((if_neg hNear).trans (if_pos hSettled))
    obtain ⟨s, m, rfl, hWithin⟩ := hRange.range hSettled
    rw [Loop.run_of_next _ (scaleRound_of_far hNear hSettled), scale_of_far hNear hSettled]
    exact ih ((stepToward_sub hNear).trans hToward) (hToward ▸ hStep hWithin s)

/-- What is infinite stays so, and the rest is rounded. -/
theorem settledOr_scaleOnce {range : Magnitude → Prop} {m : Magnitude} (s : Bool) {exponent : Int}
    {up down : Nat} (hUp : exponent.toNat = up) (hDown : (-exponent).toNat = down)
    (hRange : SettledOr range (.signed s (round (m.units * 2 ^ up) (2 ^ down)))) :
    SettledOr range (scaleOnce (.signed s m) exponent) := by
  subst hUp hDown
  rw [scaleOnce]
  split
  · rename_i hInfinite
    exact .inr (.inl hInfinite)
  · exact hRange

/-- Scaling up by a large power makes a number at least as much larger, or infinite. -/
theorem scaleOnce_up {step k : Nat} {m : Magnitude} (hStep : 52 ≤ step)
    (hLarge : 2 ^ (step * k) ≤ m.units) (s : Bool) :
    SettledOr (2 ^ (step * (k + 1)) ≤ ·.units) (scaleOnce (.signed s m) step) := by
  refine settledOr_scaleOnce s (Int.toNat_natCast step) (Int.toNat_neg_natCast step) ?_
  obtain ⟨shift, hShift⟩ : ∃ shift, step * (k + 1) = shift + 52 :=
    ⟨step * (k + 1) - 52, by rw [Nat.mul_succ]; omega⟩
  have hProduct : 2 ^ (shift + 52) * 2 ^ 0 ≤ m.units * 2 ^ step := by
    rw [← hShift, Nat.mul_succ, Nat.pow_add, Nat.pow_zero, Nat.mul_one]
    exact Nat.mul_le_mul_right _ hLarge
  have hRank := Magnitude.le_rank_round (Nat.two_pow_pos 0) hProduct
  rw [hShift]
  rcases Nat.le_total infiniteRank ((shift + 1) * blockSize) with hBeyond | hBefore
  · rw [Nat.min_eq_right hBeyond] at hRank
    exact .inr (.inl (beq_iff_eq.2 (Nat.le_antisymm (Magnitude.bounded _) hRank)))
  · rw [Nat.min_eq_left hBefore] at hRank
    exact .inr (.inr (Magnitude.le_units hRank))

/-- Scaling down by a large power takes almost as much from a number. The last bit may be lost to
rounding. -/
theorem scaleOnce_down {step k : Nat} {m : Magnitude} (hStep : 53 < step)
    (hSmall : m.units < 2 ^ (step * (k + 1))) (s : Bool) :
    SettledOr (·.units < 2 ^ (step * k)) (scaleOnce (.signed s m) (-(step + 1 : Nat))) := by
  have hDown : (-(-(step + 1 : Nat)) : Int).toNat = step + 1 := by omega
  refine settledOr_scaleOnce s (Int.toNat_neg_natCast _) hDown ?_
  rw [Nat.pow_zero, Nat.mul_one]
  have hPos := Nat.two_pow_pos (step + 1)
  cases k with
  | zero =>
    have hHalf : 2 * m.units ≤ 2 ^ (step + 1) := by
      rw [Nat.pow_succ, Nat.mul_comm]
      exact Nat.mul_le_mul_right _ (Nat.le_of_lt (by simpa using hSmall))
    exact .inl (by rw [Magnitude.round_eq_zero hPos hHalf]; rfl)
  | succ k =>
    obtain ⟨shift, hShift⟩ : ∃ shift, step * (k + 1) = shift + 1 + 53 :=
      ⟨step * (k + 1) - 54, by rw [Nat.mul_succ]; omega⟩
    have hQuotient : m.units < 2 ^ (shift + 53) * 2 ^ (step + 1) := by
      rw [← Nat.pow_add]
      refine Nat.lt_of_lt_of_le hSmall (Nat.pow_le_pow_right (by decide) ?_)
      rw [Nat.mul_succ, hShift]
      omega
    have hUnits := Magnitude.units_le (k := shift + 1) (Magnitude.rank_round_le hPos hQuotient)
    refine .inr (.inr (Nat.lt_of_le_of_lt hUnits (Nat.pow_lt_pow_right (by decide) ?_)))
    omega

/-- Whatever the exponent is, scaling takes no more than four rounds: three steps up lead from the
least number to infinity, and three steps down lead from the largest one to zero. -/
theorem scale_rounds (x : Binary64) (exponent : Int) :
    Loop.run scaleRound 4 (x, exponent) = some (x.scale exponent) := by
  by_cases hNegative : exponent < 0
  · let below (rounds : Nat) (m : Magnitude) : Prop := m.units < 2 ^ (999 * rounds)
    have hZero (m : Magnitude) (hSmall : below 0 m) : m.isZero :=
      Magnitude.isZero_of_units_eq_zero (Nat.lt_one_iff.1 hSmall)
    have hStep {rounds : Nat} {m : Magnitude} (hSmall : below (rounds + 1) m) (s : Bool) :
        SettledOr (below rounds) (scaleOnce (.signed s m) (-scaleStep)) :=
      scaleOnce_down (by decide) hSmall s
    have hStart (m : Magnitude) (_ : ¬m.isZero) : below 3 m :=
      Magnitude.units_lt_two_pow (by decide) m
    exact run_scaleRound hZero hStep (if_pos hNegative) (settledOr_of_nonzero hStart x)
  · let above (rounds : Nat) (m : Magnitude) : Prop :=
      ∃ steps, steps + rounds = 3 ∧ 2 ^ (1000 * steps) ≤ m.units
    have hZero (m : Magnitude) (hLarge : above 0 m) : m.isZero := by
      obtain ⟨_, rfl, hLarge⟩ := hLarge
      exact absurd hLarge (Nat.not_le.2 (Magnitude.units_lt_two_pow (by decide) m))
    have hStep {rounds : Nat} {m : Magnitude} (hLarge : above (rounds + 1) m) (s : Bool) :
        SettledOr (above rounds) (scaleOnce (.signed s m) scaleStep) := by
      obtain ⟨steps, hSteps, hLarge⟩ := hLarge
      exact (scaleOnce_up (by decide) hLarge s).imp fun m hLarger => ⟨steps + 1, by omega, hLarger⟩
    have hStart (m : Magnitude) (hNonzero : ¬m.isZero) : above 3 m := by
      refine ⟨0, rfl, Nat.pos_of_ne_zero fun hUnits => ?_⟩
      exact hNonzero (Magnitude.isZero_of_units_eq_zero hUnits)
    exact run_scaleRound hZero hStep (if_neg hNegative) (settledOr_of_nonzero hStart x)

end Binary64

namespace Arithmetic

/-- Adds the next element to the sum of those before it, if there are any. -/
def sumRound : Option Value × List Value → (Option Value × List Value) ⊕ Except Fault Value
  | (total, []) => .inr (.ok (total.getD (.integer 0)))
  | (total, v :: rest) =>
    match total.elim (summand v) fun total => do add total (← summand v) with
    | .ok total => .inl (some total, rest)
    | .error fault => .inr (.error fault)

theorem run_sumRound (total : Value) (vs : List Value) :
    Loop.run sumRound (vs.length + 1) (some total, vs) =
      some (vs.foldlM (fun total v => do add total (← summand v)) total) := by
  induction vs generalizing total with
  | nil => rfl
  | cons v rest ih =>
    rw [List.length_cons, Loop.run, List.foldlM_cons]
    simp only [sumRound, Option.elim_some]
    cases (do add total (← summand v) : Except Fault Value) with
    | error fault => rfl
    | ok total => exact ih total

/-- A sum takes one round for each element, and one to notice the end. -/
theorem sum_rounds (vs : List Value) :
    Loop.run sumRound (vs.length + 1) (none, vs) = some (sum vs) := by
  cases vs with
  | nil => rfl
  | cons v rest =>
    rw [List.length_cons, Loop.run]
    simp only [sumRound, Option.elim_none, sum]
    cases summand v with
    | error fault => rfl
    | ok total => exact run_sumRound total rest

end Arithmetic

end EmbeddedLisp
