import EmbeddedLisp.Proofs.Procedure.Rounds
import Mathlib.Data.Nat.Factorial.Basic

/-! Arithmetic on integers is exact or overflows, and never wraps. For each procedure that has an
integer for integers, the exact result is told without regard to the range of integers. It is
answered if it is in range.

Two procedures have an intermediate result that must be in range too: the quotient that belongs to a
remainder, and the magnitude that a sign is given to. Each of them overflows for arguments whose
result would be in range. -/
namespace EmbeddedLisp

namespace Fixnum

open Nat (factorial)

/-- Whether an integer of the language has this value. -/
def Fits (n : Int) : Prop := -2 ^ 63 ≤ n ∧ n < 2 ^ 63

/-- The least number there is, which has no counterpart above zero. -/
def least : Fixnum := ⟨-2 ^ 63, by decide⟩

def minusOne : Fixnum := ⟨-1, by decide⟩

section

variable {n : Int} {a b : Fixnum}

theorem fits_toInt (a : Fixnum) : Fits a.toInt := a.inRange

/-- A number in range is represented by itself. -/
theorem ofInt?_of_fits (hFits : Fits n) : ofInt? n = some ⟨n, hFits⟩ := ofInt?_eq_some_iff.2 rfl

theorem ofInt?_of_not_fits (hBeyond : ¬Fits n) : ofInt? n = none := by
  rw [ofInt?_eq_none_iff]
  unfold Fits at hBeyond
  omega

theorem eq_zero_iff : a = 0 ↔ a.toInt = 0 := by
  constructor
  · rintro rfl
    rfl
  · intro hZero
    have hSame : ofInt? a.toInt = ofInt? 0 := congrArg ofInt? hZero
    rw [ofInt?_toInt] at hSame
    exact Option.some.inj hSame

/-- The product goes on as long as it is in range. Beyond, it would not come back. -/
theorem productFrom_eq (count : Nat) {next : Nat} {product : Fixnum}
    (hProduct : product.toInt = factorial next) :
    productFrom count (next + 1) product = ofInt? (factorial (next + count)) := by
  induction count generalizing next product with
  | zero => exact (ofInt?_eq_some_iff.2 hProduct).symm
  | succ count ih =>
    have hNext : product.toInt * (next + 1 : Nat) = factorial (next + 1) := by
      rw [hProduct, Nat.factorial_succ, ← Nat.cast_mul, Nat.mul_comm]
    rw [productFrom, hNext]
    by_cases hFits : Fits (factorial (next + 1))
    · rw [ofInt?_of_fits hFits, Option.bind_eq_bind, Option.bind_some, ih rfl]
      congr 3
      omega
    · have hLarger : factorial (next + 1) ≤ factorial (next + (count + 1)) :=
        Nat.factorial_le (by omega)
      have hBeyond : ¬Fits (factorial (next + (count + 1))) := by
        unfold Fits at hFits ⊢
        omega
      rw [ofInt?_of_not_fits hFits, ofInt?_of_not_fits hBeyond]
      rfl

theorem factorial?_eq (n : Nat) : factorial? n = ofInt? (factorial n) := by
  rw [factorial?, @productFrom_eq (n - 1) 1 1 rfl]
  cases n with
  | zero => rfl
  | succ n => rw [Nat.add_sub_cancel, Nat.add_comm]

/-- The quotient of integers is out of range in one case. -/
theorem fits_tdiv_iff (a : Fixnum) (hNonzero : b.toInt ≠ 0) :
    Fits (a.toInt.tdiv b.toInt) ↔ ¬(a.toInt = -2 ^ 63 ∧ b.toInt = -1) := by
  have hA := a.fits_toInt
  generalize a.toInt = a at *
  generalize b.toInt = b at *
  unfold Fits at *
  by_cases hUnit : b.natAbs = 1
  · obtain rfl | rfl : b = 1 ∨ b = -1 := by omega
    · rw [Int.tdiv_one]
      omega
    · rw [Int.tdiv_neg, Int.tdiv_one]
      omega
  · have hHalf : (a.tdiv b).natAbs ≤ a.natAbs / 2 := by
      rw [Int.natAbs_tdiv]
      exact Nat.div_le_div_left (by omega) (by decide)
    omega

/-- The remainder of integers is always in range. -/
theorem fits_tmod (a : Fixnum) (hNonzero : b.toInt ≠ 0) : Fits (a.toInt.tmod b.toInt) := by
  have hB := b.fits_toInt
  have hLess : (a.toInt.tmod b.toInt).natAbs < b.toInt.natAbs := by
    rw [Int.natAbs_tmod]
    exact Nat.mod_lt _ (by omega)
  unfold Fits at *
  omega

theorem remainder?_eq (a : Fixnum) (hNonzero : b.toInt ≠ 0)
    (hRange : ¬(a.toInt = -2 ^ 63 ∧ b.toInt = -1)) :
    a.remainder? b = ofInt? (a.toInt.tmod b.toInt) := by
  rw [remainder?, quotient?, ofInt?_of_fits ((fits_tdiv_iff a hNonzero).2 hRange)]
  rfl

/-- The remainder of the least number by `-1` is refused, though it is zero. -/
theorem remainder?_eq_none (a : Fixnum) (hBeyond : a.toInt = -2 ^ 63 ∧ b.toInt = -1) :
    a.remainder? b = none := by
  have hNonzero : b.toInt ≠ 0 := by omega
  have hQuotient : ¬Fits (a.toInt.tdiv b.toInt) :=
    fun hFits => (fits_tdiv_iff a hNonzero).1 hFits hBeyond
  rw [remainder?, quotient?, ofInt?_of_not_fits hQuotient]
  rfl

/-- The magnitude of `m` under the sign of `s`. -/
def withSign (m s : Int) : Int := if s < 0 then -m.natAbs else m.natAbs

/-- The least number is the only one without an absolute value. -/
theorem fits_natAbs_iff (a : Fixnum) : Fits a.toInt.natAbs ↔ a.toInt ≠ -2 ^ 63 := by
  have hA := a.fits_toInt
  unfold Fits at *
  omega

theorem copySign?_eq {a b : Fixnum} (hWithin : ¬(a.toInt = -2 ^ 63 ∧ b.toInt < 0)) :
    a.copySign? b = ofInt? (withSign a.toInt b.toInt) := by
  rw [copySign?, abs?, withSign]
  by_cases hMagnitude : Fits a.toInt.natAbs
  · rw [ofInt?_of_fits hMagnitude, Option.bind_eq_bind, Option.bind_some]
    split
    · rfl
    · exact (ofInt?_of_fits hMagnitude).symm
  · have hLeast : a.toInt = -2 ^ 63 := by
      by_contra hOther
      exact hMagnitude ((fits_natAbs_iff a).2 hOther)
    rw [if_neg fun hNegative => hWithin ⟨hLeast, hNegative⟩, ofInt?_of_not_fits hMagnitude]
    rfl

/-- The least number is refused whatever the sign to copy, as its absolute value is taken first. -/
theorem copySign?_eq_none {a : Fixnum} (b : Fixnum) (hLeast : a.toInt = -2 ^ 63) :
    a.copySign? b = none := by
  have hMagnitude : ¬Fits a.toInt.natAbs := fun hFits => (fits_natAbs_iff a).1 hFits hLeast
  rw [copySign?, abs?, ofInt?_of_not_fits hMagnitude]
  rfl

/-- Negated, the magnitude of the least integer is in range. -/
theorem fits_withSign_of_negative (a : Fixnum) (hNegative : b.toInt < 0) :
    Fits (withSign a.toInt b.toInt) := by
  have hA := a.fits_toInt
  rw [withSign, if_pos hNegative]
  unfold Fits at *
  omega

end

end Fixnum

open Fixnum (Fits)

/-- The answer for an exact result: the integer, or an overflow if there is no integer of the
language. -/
structure Exactly (procedure : Builtin) (n : Int) (answer : Except Fault Value) : Prop where
  fits (hFits : Fits n) : ∃ a : Fixnum, a.toInt = n ∧ answer = .ok (.integer a)
  overflows (hBeyond : ¬Fits n) : answer = .error (.overflow procedure)

/-- The check at the end of an operation is exact. -/
theorem exactly_inRange (procedure : Builtin) (n : Int) :
    Exactly procedure n (Arithmetic.inRange procedure (Fixnum.ofInt? n)) where
  fits hFits := by
    rw [Fixnum.ofInt?_of_fits hFits]
    exact ⟨⟨n, hFits⟩, rfl, rfl⟩
  overflows hBeyond := by
    rw [Fixnum.ofInt?_of_not_fits hBeyond]
    rfl

namespace Exactly

variable {procedure : Builtin} {n : Int} {answer : Except Fault Value}

theorem eq_integer {a : Fixnum} (h : Exactly procedure n answer)
    (hAnswer : answer = .ok (.integer a)) :
    a.toInt = n := by
  by_cases hFits : Fits n
  · obtain ⟨b, hValue, hSame⟩ := h.fits hFits
    rw [hAnswer] at hSame
    cases hSame
    exact hValue
  · rw [h.overflows hFits] at hAnswer
    cases hAnswer

/-- An exact answer is a failure when the number to answer with does not fit. -/
theorem fails_iff (h : Exactly procedure n answer) :
    (∃ fault, answer = .error fault) ↔ ¬Fits n := by
  constructor
  · rintro ⟨fault, hFails⟩ hFits
    obtain ⟨a, -, hAnswer⟩ := h.fits hFits
    rw [hAnswer] at hFails
    cases hFails
  · intro hBeyond
    exact ⟨_, h.overflows hBeyond⟩

end Exactly

namespace Builtin

/-- The exact result of a procedure that has an integer for these integers. -/
def result? : Builtin → List Fixnum → Option Int
  | .add, [a, b] => some (a.toInt + b.toInt)
  | .subtract, [a, b] => some (a.toInt - b.toInt)
  | .multiply, [a, b] => some (a.toInt * b.toInt)
  | .divide, [a, b] => if b.toInt = 0 then none else some (a.toInt.tdiv b.toInt)
  | .modulo, [a, b] => if b.toInt = 0 then none else some (a.toInt.tmod b.toInt)
  | .abs, [a] => some a.toInt.natAbs
  | .factorial, [a] => if a.toInt < 0 then none else some (Nat.factorial a.toInt.toNat)
  | .copysign, [a, b] => some (Fixnum.withSign a.toInt b.toInt)
  | _, _ => none

/-- The arguments for which an intermediate result is out of range, and the exact result is not. -/
def Oversteps : Builtin → List Fixnum → Prop
  | .modulo, [a, b] => a.toInt = -2 ^ 63 ∧ b.toInt = -1
  | .copysign, [a, b] => a.toInt = -2 ^ 63 ∧ b.toInt < 0
  | _, _ => False

/-- A procedure is called with these integers. -/
def onIntegers (procedure : Builtin) (numbers : List Fixnum) : Except Fault Value :=
  procedure.operation.call (numbers.map .integer)

section

variable {procedure : Builtin} {numbers : List Fixnum} {n : Int}

theorem call_number (f : Number → Except Fault Value) (a : Fixnum) :
    (Operation.typed [.number] fun (m, ()) => f m).call [.integer a] = f (.integer a) := rfl

theorem call_numbers (f : Number → Number → Except Fault Value) (a b : Fixnum) :
    (Operation.typed [.number, .number] fun (m, s, ()) => f m s).call [.integer a, .integer b] =
      f (.integer a) (.integer b) := rfl

theorem onIntegers_abs (a : Fixnum) : onIntegers .abs [a] = Arithmetic.inRange .abs a.abs? :=
  call_number Arithmetic.abs a

theorem onIntegers_copysign (a b : Fixnum) :
    onIntegers .copysign [a, b] = Arithmetic.inRange .copysign (a.copySign? b) :=
  call_numbers Arithmetic.copySign a b

theorem onIntegers_divide_zero (a : Fixnum) {b : Fixnum} (hZero : b.toInt = 0) :
    onIntegers .divide [a, b] = .error .divisionByZero := if_pos (Fixnum.eq_zero_iff.2 hZero)

theorem onIntegers_divide (a : Fixnum) {b : Fixnum} (hNonzero : b.toInt ≠ 0) :
    onIntegers .divide [a, b] = Arithmetic.inRange .divide (a.quotient? b) :=
  if_neg fun hZero => hNonzero (Fixnum.eq_zero_iff.1 hZero)

theorem onIntegers_modulo (a : Fixnum) {b : Fixnum} (hNonzero : b.toInt ≠ 0) :
    onIntegers .modulo [a, b] = Arithmetic.inRange .modulo (a.remainder? b) :=
  if_neg fun hZero => hNonzero (Fixnum.eq_zero_iff.1 hZero)

theorem onIntegers_factorial {a : Fixnum} (hNonnegative : ¬a.toInt < 0) :
    onIntegers .factorial [a] = Arithmetic.inRange .factorial (Fixnum.factorial? a.toInt.toNat) :=
  if_neg hNonnegative

/-- One case for each exact result that there is. -/
theorem onIntegers_exactly (hExact : procedure.result? numbers = some n)
    (hWithin : ¬procedure.Oversteps numbers) :
    Exactly procedure n (procedure.onIntegers numbers) := by
  unfold result? at hExact
  split at hExact
  · cases hExact
    exact exactly_inRange .add _
  · cases hExact
    exact exactly_inRange .subtract _
  · cases hExact
    exact exactly_inRange .multiply _
  · rename_i a b
    split at hExact
    · cases hExact
    · rename_i hNonzero
      cases hExact
      rw [onIntegers_divide a hNonzero]
      exact exactly_inRange .divide _
  · rename_i a b
    split at hExact
    · cases hExact
    · rename_i hNonzero
      cases hExact
      rw [onIntegers_modulo a hNonzero, Fixnum.remainder?_eq a hNonzero hWithin]
      exact exactly_inRange .modulo _
  · rename_i a
    cases hExact
    rw [onIntegers_abs]
    exact exactly_inRange .abs _
  · rename_i a
    split at hExact
    · cases hExact
    · rename_i hNonnegative
      cases hExact
      rw [onIntegers_factorial hNonnegative, Fixnum.factorial?_eq]
      exact exactly_inRange .factorial _
  · rename_i a b
    cases hExact
    rw [onIntegers_copysign, Fixnum.copySign?_eq hWithin]
    exact exactly_inRange .copysign _
  · cases hExact

/-- The two calls that fail with a result in range fail as an overflow. -/
theorem onIntegers_oversteps (hBeyond : procedure.Oversteps numbers) :
    procedure.onIntegers numbers = .error (.overflow procedure) := by
  unfold Oversteps at hBeyond
  split at hBeyond
  · rename_i a b
    have hNonzero : b.toInt ≠ 0 := by omega
    rw [onIntegers_modulo a hNonzero, Fixnum.remainder?_eq_none a hBeyond]
    rfl
  · rename_i a b
    rw [onIntegers_copysign, Fixnum.copySign?_eq_none b hBeyond.1]
    rfl
  · cases hBeyond

theorem fits_of_oversteps (hExact : procedure.result? numbers = some n)
    (hBeyond : procedure.Oversteps numbers) :
    Fits n := by
  unfold Oversteps at hBeyond
  split at hBeyond
  · rename_i a b
    have hNonzero : b.toInt ≠ 0 := by omega
    have hRemainder : result? .modulo [a, b] = some (a.toInt.tmod b.toInt) := if_neg hNonzero
    rw [hRemainder] at hExact
    cases hExact
    exact Fixnum.fits_tmod a hNonzero
  · rename_i a b
    cases hExact
    exact Fixnum.fits_withSign_of_negative a hBeyond.2
  · cases hBeyond

/-- The quotient and the remainder belong together. -/
theorem quotient_remainder {a b q r : Fixnum}
    (hQuotient : onIntegers .divide [a, b] = .ok (.integer q))
    (hRemainder : onIntegers .modulo [a, b] = .ok (.integer r)) :
    a.toInt = q.toInt * b.toInt + r.toInt ∧ r.toInt.natAbs < b.toInt.natAbs ∧
      (r.toInt = 0 ∨ r.toInt.sign = a.toInt.sign) := by
  have hNonzero : b.toInt ≠ 0 := by
    intro hZero
    rw [onIntegers_divide_zero a hZero] at hQuotient
    cases hQuotient
  have hWithin : ¬(a.toInt = -2 ^ 63 ∧ b.toInt = -1) := by
    intro hBeyond
    have hFails : onIntegers .modulo [a, b] = _ := onIntegers_oversteps hBeyond
    rw [hRemainder] at hFails
    cases hFails
  have hDivide : result? .divide [a, b] = some (a.toInt.tdiv b.toInt) := if_neg hNonzero
  have hModulo : result? .modulo [a, b] = some (a.toInt.tmod b.toInt) := if_neg hNonzero
  rw [(onIntegers_exactly hDivide id).eq_integer hQuotient,
    (onIntegers_exactly hModulo hWithin).eq_integer hRemainder]
  refine ⟨?_, ?_, ?_⟩
  · rw [Int.mul_comm, Int.mul_tdiv_add_tmod]
  · rw [Int.natAbs_tmod]
    exact Nat.mod_lt _ (by omega)
  · have hSign := Int.sign_tmod a.toInt b.toInt
    split at hSign
    · exact .inl (Int.sign_eq_zero_iff_zero.1 hSign)
    · exact .inr hSign

end

end Builtin

namespace Arithmetic

/-- Every sum on the way is in range. -/
def PrefixSumsFit (start : Int) (numbers : List Fixnum) : Prop :=
  ∀ front, front <+: numbers → Fits (start + (front.map Fixnum.toInt).sum)

/-- The sums of the prefixes of a list fit when the first does and those after it do. -/
theorem prefixSumsFit_cons {start : Int} {a : Fixnum} {rest : List Fixnum} :
    PrefixSumsFit start (a :: rest) ↔ Fits start ∧ PrefixSumsFit (start + a.toInt) rest := by
  constructor
  · intro hFit
    constructor
    · simpa using hFit [] List.nil_prefix
    · intro front hFront
      simpa [Int.add_assoc] using hFit (a :: front) ((List.cons_prefix_cons).2 ⟨rfl, hFront⟩)
  · rintro ⟨hStart, hRest⟩ front hFront
    rcases List.prefix_cons_iff.1 hFront with rfl | ⟨front, rfl, hLater⟩
    · simpa using hStart
    · simpa [Int.add_assoc] using hRest front hLater

/-- One more element of a sum. -/
def accumulate (total v : Value) : Except Fault Value := do add total (← summand v)

theorem accumulate_integer (total a : Fixnum) :
    accumulate (.integer total) (.integer a) =
      inRange .add (Fixnum.ofInt? (total.toInt + a.toInt)) :=
  rfl

theorem sum_cons_integer (a : Fixnum) (vs : List Value) :
    sum (.integer a :: vs) = vs.foldlM accumulate (.integer a) := rfl

/-- A sum is exact as long as no prefix of it leaves the range, by induction on the terms. -/
theorem foldlM_accumulate_fits {total : Fixnum} {numbers : List Fixnum}
    (hFit : PrefixSumsFit total.toInt numbers) :
    ∃ s : Fixnum, s.toInt = total.toInt + (numbers.map Fixnum.toInt).sum ∧
      (numbers.map Value.integer).foldlM accumulate (.integer total) = .ok (.integer s) := by
  induction numbers generalizing total with
  | nil => exact ⟨total, (Int.add_zero _).symm, rfl⟩
  | cons a rest ih =>
    have hRest := (prefixSumsFit_cons.1 hFit).2
    have hNext : Fits (total.toInt + a.toInt) := by simpa using hRest [] List.nil_prefix
    obtain ⟨s, hSum, hFold⟩ := @ih ⟨total.toInt + a.toInt, hNext⟩ hRest
    refine ⟨s, ?_, ?_⟩
    · rw [hSum, List.map_cons, List.sum_cons, Int.add_assoc]
    · rw [List.map_cons, List.foldlM_cons, accumulate_integer, Fixnum.ofInt?_of_fits hNext]
      exact hFold

/-- The first prefix that leaves the range ends the sum. -/
theorem foldlM_accumulate_overflows {total : Fixnum} {numbers : List Fixnum}
    (hBeyond : ¬PrefixSumsFit total.toInt numbers) :
    (numbers.map Value.integer).foldlM accumulate (.integer total) = .error (.overflow .add) := by
  induction numbers generalizing total with
  | nil =>
    refine absurd ?_ hBeyond
    intro front hFront
    rw [List.prefix_nil.1 hFront]
    simpa using total.fits_toInt
  | cons a rest ih =>
    rw [List.map_cons, List.foldlM_cons, accumulate_integer]
    by_cases hNext : Fits (total.toInt + a.toInt)
    · rw [Fixnum.ofInt?_of_fits hNext]
      refine @ih ⟨total.toInt + a.toInt, hNext⟩ fun hRest => hBeyond ?_
      exact prefixSumsFit_cons.2 ⟨total.fits_toInt, hRest⟩
    · rw [Fixnum.ofInt?_of_not_fits hNext]
      rfl

/-- The sum of a list of integers is exact if every sum on the way is in range, and overflows
otherwise. -/
theorem sum_integers (numbers : List Fixnum) :
    (PrefixSumsFit 0 numbers → ∃ s : Fixnum, s.toInt = (numbers.map Fixnum.toInt).sum ∧
      sum (numbers.map .integer) = .ok (.integer s)) ∧
    (¬PrefixSumsFit 0 numbers → sum (numbers.map .integer) = .error (.overflow .add)) := by
  have hZero : Fits 0 := Fixnum.fits_toInt 0
  cases numbers with
  | nil =>
    refine ⟨fun _ => ⟨0, rfl, rfl⟩, fun hBeyond => absurd ?_ hBeyond⟩
    intro front hFront
    rw [List.prefix_nil.1 hFront]
    exact hZero
  | cons a rest =>
    rw [prefixSumsFit_cons, and_iff_right hZero, Int.zero_add]
    simp only [List.map_cons, sum_cons_integer]
    exact ⟨foldlM_accumulate_fits, foldlM_accumulate_overflows⟩

end Arithmetic

namespace Builtin

/-- Addition, subtraction and multiplication are exact or overflow; so is division, except by zero,
and its remainder makes up for the rounding; so are magnitudes and factorials, and a factorial takes
no more than 20 rounds; and so are sums of any length. -/
theorem integers_exact (a b : Fixnum) (numbers : List Fixnum) :
    Exactly .add (a.toInt + b.toInt) (onIntegers .add [a, b]) ∧
    Exactly .subtract (a.toInt - b.toInt) (onIntegers .subtract [a, b]) ∧
    Exactly .multiply (a.toInt * b.toInt) (onIntegers .multiply [a, b]) ∧
    (if b.toInt = 0 then onIntegers .divide [a, b] = .error .divisionByZero
      else Exactly .divide (a.toInt.tdiv b.toInt) (onIntegers .divide [a, b])) ∧
    (∀ q r, onIntegers .divide [a, b] = .ok (.integer q) →
      onIntegers .modulo [a, b] = .ok (.integer r) →
      a.toInt = q.toInt * b.toInt + r.toInt ∧ r.toInt.natAbs < b.toInt.natAbs ∧
        (r.toInt = 0 ∨ r.toInt.sign = a.toInt.sign)) ∧
    Exactly .abs a.toInt.natAbs (onIntegers .abs [a]) ∧
    ((∃ fault, onIntegers .abs [a] = .error fault) ↔ a.toInt = -2 ^ 63) ∧
    (if a.toInt < 0 then onIntegers .factorial [a] = .error (.negativeFactorial a)
      else Exactly .factorial a.toInt.toNat.factorial (onIntegers .factorial [a])) ∧
    Loop.run (Fixnum.factorialRound a.toInt.toNat) 20 (2, 1) =
      some (Fixnum.factorial? a.toInt.toNat) ∧
    ((∀ front, front <+: numbers → Fits (front.map Fixnum.toInt).sum) →
      ∃ s : Fixnum, s.toInt = (numbers.map Fixnum.toInt).sum ∧
        fsum.operation.call [.list (numbers.map .integer)] = .ok (.integer s)) ∧
    ((∃ front, front <+: numbers ∧ ¬Fits (front.map Fixnum.toInt).sum) →
      fsum.operation.call [.list (numbers.map .integer)] = .error (.overflow .add)) := by
  have hAbs : Exactly .abs a.toInt.natAbs (onIntegers .abs [a]) := onIntegers_exactly rfl id
  obtain ⟨hSum, hOverflow⟩ := Arithmetic.sum_integers numbers
  simp only [Arithmetic.PrefixSumsFit, Int.zero_add] at hSum hOverflow
  refine ⟨onIntegers_exactly rfl id, onIntegers_exactly rfl id, onIntegers_exactly rfl id, ?_,
    fun q r => quotient_remainder, hAbs, ?_, ?_, Fixnum.factorial?_rounds _, hSum, ?_⟩
  · split
    · rename_i hZero
      exact onIntegers_divide_zero a hZero
    · rename_i hNonzero
      exact onIntegers_exactly (if_neg hNonzero) id
  · rw [hAbs.fails_iff, Fixnum.fits_natAbs_iff, not_not]
  · split
    · rename_i hNegative
      exact if_pos hNegative
    · rename_i hNonnegative
      exact onIntegers_exactly (if_neg hNonnegative) id
  · rintro ⟨front, hFront, hBeyond⟩
    exact hOverflow fun hFit => hBeyond (hFit front hFront)

/-- An overflow is reported where the exact result is out of range, and where an intermediate result
oversteps the range that the exact result is in. All other results are exact. -/
theorem overflow_iff {procedure : Builtin} {numbers : List Fixnum} {n : Int}
    (hExact : procedure.result? numbers = some n) :
    (procedure.onIntegers numbers = .error (.overflow procedure) ↔ ¬Fits n ∨
      procedure.Oversteps numbers) ∧ (procedure.Oversteps numbers → Fits n) ∧
      (Fits n → ¬procedure.Oversteps numbers →
        ∃ a : Fixnum, a.toInt = n ∧ procedure.onIntegers numbers = .ok (.integer a)) := by
  refine ⟨?_, fits_of_oversteps hExact, fun hFits hWithin =>
    (onIntegers_exactly hExact hWithin).fits hFits⟩
  constructor
  · intro hOverflow
    by_cases hBeyond : procedure.Oversteps numbers
    · exact .inr hBeyond
    · exact .inl ((onIntegers_exactly hExact hBeyond).fails_iff.1 ⟨_, hOverflow⟩)
  · intro hEither
    by_cases hBeyond : procedure.Oversteps numbers
    · exact onIntegers_oversteps hBeyond
    · exact (onIntegers_exactly hExact hBeyond).overflows (hEither.resolve_right hBeyond)

/-- The least integer is a multiple of -1, and no remainder is answered. -/
theorem overflow_iff_remainder :
    result? .modulo [.least, .minusOne] = some 0 ∧
      onIntegers .modulo [.least, .minusOne] = .error (.overflow .modulo) := by
  have hExact : result? .modulo [.least, .minusOne] = some 0 := rfl
  exact ⟨hExact, (overflow_iff hExact).1.2 (.inr ⟨rfl, rfl⟩)⟩

/-- Not every remainder is answered, and not every integer in range that has the magnitude of one
integer and the sign of another. -/
theorem overflow_in_range :
    (¬∀ a b : Fixnum, b.toInt ≠ 0 →
      ∃ r : Fixnum, r.toInt = a.toInt.tmod b.toInt ∧ onIntegers .modulo [a, b] = .ok (.integer r)) ∧
    ¬∀ m s : Fixnum, Fits (Fixnum.withSign m.toInt s.toInt) →
      ∃ r : Fixnum, r.toInt = Fixnum.withSign m.toInt s.toInt ∧
        onIntegers .copysign [m, s] = .ok (.integer r) := by
  constructor
  · intro hRemainder
    obtain ⟨r, -, hAnswer⟩ := hRemainder .least .minusOne (by decide)
    have hOverflow : onIntegers .modulo [.least, .minusOne] = _ := onIntegers_oversteps ⟨rfl, rfl⟩
    rw [hAnswer] at hOverflow
    cases hOverflow
  · intro hSign
    obtain ⟨r, -, hAnswer⟩ := hSign .least .minusOne Fixnum.least.fits_toInt
    have hOverflow : onIntegers .copysign [.least, .minusOne] = _ :=
      onIntegers_oversteps ⟨rfl, by decide⟩
    rw [hAnswer] at hOverflow
    cases hOverflow

end Builtin

end EmbeddedLisp
