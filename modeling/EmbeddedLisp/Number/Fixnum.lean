/-! The integers of the language are the whole numbers that a signed word of 64 bits holds.
Arithmetic is done on unbounded integers and checked once, on the result, so an operation is
exact or has no result. Nothing wraps. -/
namespace EmbeddedLisp

/-- A whole number from `-2 ^ 63` to `2 ^ 63 - 1`. -/
structure Fixnum where
  toInt : Int
  inRange : -0x8000000000000000 ≤ toInt ∧ toInt < 0x8000000000000000
deriving DecidableEq

namespace Fixnum

/-- The fixnum of this value, if the value is in range. -/
def ofInt? (n : Int) : Option Fixnum :=
  if inRange : -0x8000000000000000 ≤ n ∧ n < 0x8000000000000000 then some ⟨n, inRange⟩
  else none

theorem ofInt?_eq_some_iff {n : Int} {a : Fixnum} : ofInt? n = some a ↔ a.toInt = n := by
  constructor
  · intro h
    unfold ofInt? at h
    split at h
    · cases h
      rfl
    · cases h
  · rintro rfl
    exact dif_pos a.inRange

/-- What is out of range is not represented. -/
theorem ofInt?_eq_none_iff {n : Int} :
    ofInt? n = none ↔ n < -0x8000000000000000 ∨ 0x8000000000000000 ≤ n := by
  unfold ofInt?
  split <;> simp <;> omega

@[simp] theorem ofInt?_toInt (a : Fixnum) : ofInt? a.toInt = some a :=
  ofInt?_eq_some_iff.2 rfl

instance : OfNat Fixnum 0 := ⟨⟨0, by decide⟩⟩

instance : OfNat Fixnum 1 := ⟨⟨1, by decide⟩⟩

instance : Inhabited Fixnum := ⟨0⟩

def add? (a b : Fixnum) : Option Fixnum := ofInt? (a.toInt + b.toInt)

def sub? (a b : Fixnum) : Option Fixnum := ofInt? (a.toInt - b.toInt)

def mul? (a b : Fixnum) : Option Fixnum := ofInt? (a.toInt * b.toInt)

/-- The quotient rounded toward zero. It is out of range only for `-2 ^ 63` by `-1`; the caller
has excluded the divisor zero. -/
def quotient? (a b : Fixnum) : Option Fixnum := ofInt? (a.toInt.tdiv b.toInt)

/-- The remainder that belongs to the rounded quotient, with the sign of the dividend. There is
one only where there is a quotient. -/
def remainder? (a b : Fixnum) : Option Fixnum := do
  let _ ← a.quotient? b
  ofInt? (a.toInt.tmod b.toInt)

/-- The least number has no absolute value. -/
def abs? (a : Fixnum) : Option Fixnum := ofInt? a.toInt.natAbs

/-- The magnitude of `a`, negated when `sign` is negative. The magnitude itself has to be in
range. -/
def copySign? (a sign : Fixnum) : Option Fixnum := do
  let magnitude ← a.abs?
  if sign.toInt < 0 then ofInt? (-magnitude.toInt) else some magnitude

/-- Multiplies `product` by `count` successive factors from `next` on, and stops as soon as a
product is out of range. -/
def productFrom : (count next : Nat) → (product : Fixnum) → Option Fixnum
  | 0, _, product => some product
  | count + 1, next, product => do
    productFrom count (next + 1) (← ofInt? (product.toInt * next))

/-- The product of `1` to `n`. -/
def factorial? (n : Nat) : Option Fixnum := productFrom (n - 1) 2 1

/-- Decimal digits, after a minus sign if the number is negative. -/
def render (a : Fixnum) : String :=
  String.ofList <|
    if a.toInt < 0 then '-' :: Nat.toDigits 10 a.toInt.natAbs
    else Nat.toDigits 10 a.toInt.natAbs

end Fixnum

end EmbeddedLisp
