import EmbeddedLisp.Number.Binary64
import EmbeddedLisp.Number.Decimal

/-! How numbers are written in decimal digits and read back. -/
namespace EmbeddedLisp

namespace Decimal

/-- The value of a run of decimal digits. -/
def ofDigits (digits : List Char) : Nat := Nat.ofDigitChars 10 digits 0

/-- A whole number without a sign: one digit or more. -/
def natural? (text : List Char) : Option Nat :=
  if text ≠ [] ∧ text.all Char.isDigit then some (ofDigits text) else none

/-- Takes off one sign, which may be absent. -/
def splitSign : List Char → Bool × List Char
  | '-' :: rest => (true, rest)
  | '+' :: rest => (false, rest)
  | text => (false, text)

/-- A whole number with an optional sign. -/
def integer? (text : List Char) : Option Int :=
  let (negative, rest) := splitSign text
  (natural? rest).map fun n => if negative then -(n : Int) else n

/-- The exponent part of a number, which may be absent. -/
def exponent? : List Char → Option Int
  | [] => some 0
  | mark :: rest => if mark = 'e' ∨ mark = 'E' then integer? rest else none

/-- What stands after a decimal point is a fraction; without a point there is none. -/
def splitFraction : List Char → List Char × List Char
  | '.' :: rest => rest.span Char.isDigit
  | text => ([], text)

/-- A number without a sign: digits with at most one point before, among or after them, and then an
optional exponent. -/
def unsigned? (text : List Char) : Option Decimal := do
  let (whole, rest) := text.span Char.isDigit
  let (fraction, rest) := splitFraction rest
  if whole = [] ∧ fraction = [] then none
  else
    let exponent ← exponent? rest
    some ⟨ofDigits (whole ++ fraction), exponent - fraction.length⟩

/-- The digits of the significand, with a point where the exponent puts it and zeros up to the point
where the digits do not reach it. A whole number ends in `.0`. -/
def positional (d : Decimal) : List Char :=
  let digits := Nat.toDigits 10 d.significand
  if 0 ≤ d.exponent then digits ++ List.replicate d.exponent.toNat '0' ++ ['.', '0']
  else
    let places := d.exponent.natAbs
    let padded := List.replicate (places + 1 - digits.length) '0' ++ digits
    padded.take (padded.length - places) ++ '.' :: padded.drop (padded.length - places)

/-- One digit before the point, the others after it, and the exponent that this takes. The point is
left out with nothing to follow it, and an exponent has a sign only if it is negative. -/
def scientific (d : Decimal) : List Char :=
  let digits := Nat.toDigits 10 d.significand
  let exponent := d.exponent + (digits.length - 1 : Nat)
  let sign := if exponent < 0 then ['-'] else []
  let fraction := if digits.length ≤ 1 then [] else '.' :: digits.drop 1
  digits.take 1 ++ fraction ++ 'e' :: (sign ++ Nat.toDigits 10 exponent.natAbs)

end Decimal

namespace Binary64

/-- Writes a number by its shortest digits in the given layout of magnitudes. -/
def writeWith (layout : Magnitude → List Char) (x : Binary64) : String :=
  match x with
  | .nan _ => "NaN"
  | .signed negative m =>
    let sign := if negative then ['-'] else []
    String.ofList (sign ++ if m.isInfinite then ['i', 'n', 'f'] else layout m)

/-- The text of a number in the language: positional, whatever its size, and never without a
point. -/
def render : Binary64 → String := writeWith fun m => (Decimal.shortest m).positional

/-- The text of a number in a diagnosis: magnitudes of `10 ^ 16` and more, and those below
`10 ^ (-4)` other than zero, have an exponent. -/
def diagnose : Binary64 → String :=
  writeWith fun m =>
    let d := Decimal.shortest m
    let least := Decimal.toMagnitude ⟨1, -4⟩
    let tooLarge := Decimal.toMagnitude ⟨1, 16⟩
    if m.isZero || (least.rank ≤ m.rank && m.rank < tooLarge.rank) then d.positional
    else d.scientific

/-- The number nearest to a decimal number with an optional sign. -/
def ofText? (text : List Char) : Option Binary64 :=
  let (negative, rest) := Decimal.splitSign text
  (Decimal.unsigned? rest).map fun d => .signed negative d.toMagnitude

end Binary64

end EmbeddedLisp
