import EmbeddedLisp.Number.Binary64
import EmbeddedLisp.Number.Fixnum

/-! Powers of two: taking a number apart into a mantissa and an exponent, and scaling it by a power
of two in steps. -/
namespace EmbeddedLisp.Binary64

/-- The exponent `e` that puts a magnitude neither zero nor infinite into the range from
`2 ^ (e - 1)` up to, but not including, `2 ^ e`. -/
def binaryExponent (m : Magnitude) : Int :=
  if m.rank < Magnitude.blockSize then (m.rank.log2 : Int) - 1073
  else (m.rank / Magnitude.blockSize : Nat) - 1022

/-- The magnitude divided by the power of two of its `binaryExponent`: at least a half and less
than one. A magnitude of the first block is first doubled into the second. -/
def mantissa (m : Magnitude) : Magnitude :=
  .ofRank <| 1022 * Magnitude.blockSize +
    if m.rank < Magnitude.blockSize then m.rank * Nat.pow 2 (52 - m.rank.log2) - Magnitude.blockSize
    else m.rank % Magnitude.blockSize

theorem binaryExponent_inRange (m : Magnitude) :
    -0x8000000000000000 ≤ binaryExponent m ∧ binaryExponent m < 0x8000000000000000 := by
  have hBounded : m.rank ≤ 2047 * 0x10000000000000 := m.bounded
  unfold binaryExponent
  split
  · have hLog : m.rank.log2 ≤ m.rank := Nat.log2_le_self _
    omega
  · simp only [Magnitude.blockSize]
    omega

/-- Takes a number apart into a mantissa with a magnitude in `[0.5, 1)` and an exponent of two.
Zero, infinity and what is not a number are their own mantissas, with exponent zero. -/
def split : Binary64 → Binary64 × Fixnum
  | .nan s => (.nan s, 0)
  | .signed s m =>
    if m.isZero || m.isInfinite then (.signed s m, 0)
    else (.signed s (mantissa m), ⟨binaryExponent m, binaryExponent_inRange m⟩)

/-- The number nearest to `x * 2 ^ exponent`. -/
def scaleOnce (x : Binary64) (exponent : Int) : Binary64 :=
  match x with
  | .nan s => .nan s
  | .signed s m =>
    if m.isInfinite then .signed s m
    else .signed s (.round (m.units * Nat.pow 2 exponent.toNat) (Nat.pow 2 (-exponent).toNat))

/-- The largest power of two that one step of `scale` multiplies by, or divides by. -/
def scaleStep : Nat := 1000

/-- Scales `x` by `2 ^ exponent` in steps of `scaleStep`, rounding after each, until what is left
of the exponent is one step or less, or the number is zero or infinite and stays so. -/
def scale (x : Binary64) (exponent : Int) : Binary64 :=
  if exponent.natAbs ≤ scaleStep then x.scaleOnce exponent
  else if x.isZero || !x.isFinite then x
  else if exponent < 0 then (x.scaleOnce (-scaleStep)).scale (exponent + scaleStep)
  else (x.scaleOnce scaleStep).scale (exponent - scaleStep)
termination_by exponent.natAbs
decreasing_by all_goals simp only [scaleStep] at *; omega

end EmbeddedLisp.Binary64
