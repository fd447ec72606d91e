import EmbeddedLisp.Number.Magnitude

/-! Decimal numbers: the magnitude nearest to a decimal number, and the shortest decimal number that
stands for a magnitude. -/
namespace EmbeddedLisp

/-- The number `significand * 10 ^ exponent`. -/
structure Decimal where
  significand : Nat
  exponent : Int
deriving DecidableEq

namespace Decimal

/-- The magnitude nearest to a decimal number.

Above `10 ^ 310` everything is infinite, and what is below `10 ^ (-329)` is less than half a unit,
so the power of ten that is formed is never much longer than the significand. -/
def toMagnitude (d : Decimal) : Magnitude :=
  if d.significand = 0 then .zero
  else if 310 ≤ d.exponent then .infinity
  else if d.exponent < -((d.significand.log2 : Int) + 330) then .zero
  else
    .round (d.significand * Nat.pow 10 d.exponent.toNat * Magnitude.unitsPerOne)
      (Nat.pow 10 (-d.exponent).toNat)

/-- All digits of a finite magnitude, of which one unit has 1074 after the point. -/
def exact (m : Magnitude) : Decimal := ⟨m.units * Nat.pow 5 1074, -1074⟩

/-- Removes the zeros at the end of a significand other than zero. -/
def trim (d : Decimal) : Decimal :=
  if d.significand = 0 ∨ d.significand % 10 ≠ 0 then d
  else trim ⟨d.significand / 10, d.exponent + 1⟩
termination_by d.significand
decreasing_by omega

/-- The number of places that a magnitude is moved to the left to have digits before the point,
however small it is. -/
def lift : Nat := 400

/-- The two decimal numbers around `lifted / 10 ^ lift` units that end `dropped` places to the left
of the last lifted one, the nearer one first and the larger one first in a tie. -/
def neighbours (lifted dropped : Nat) : List Decimal :=
  let distance := Nat.pow 10 dropped * Magnitude.unitsPerOne
  let lower : Decimal := ⟨lifted / distance, (dropped : Int) - lift⟩
  let upper : Decimal := ⟨lifted / distance + 1, (dropped : Int) - lift⟩
  if 2 * (lifted % distance) < distance then [lower, upper] else [upper, lower]

/-- Of the decimal numbers nearest to a finite magnitude `m`, one with as few digits as will do: it
is read back as `m`, and no neighbour of `m` with fewer digits is. Seventeen digits always do. -/
def shortest (m : Magnitude) : Decimal :=
  if m.isZero then ⟨0, 0⟩
  else
    let lifted := m.units * Nat.pow 10 lift
    let length := (Nat.toDigits 10 (lifted / Magnitude.unitsPerOne)).length
    let found := (List.range' 1 17).findSome? fun digits =>
      (neighbours lifted (length - digits)).find? fun d => d.toMagnitude = m
    (found.getD (exact m)).trim

end Decimal

end EmbeddedLisp
