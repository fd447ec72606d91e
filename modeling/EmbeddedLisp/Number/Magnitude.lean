/-! The magnitudes of binary64 numbers, taken without their sign. Every finite one is a whole
multiple of the least, `2 ^ -1074`, so an exact value is a number of such units and rounding is
arithmetic on natural numbers.

Magnitudes are kept by rank, that is, by their place in increasing order. The first `2 ^ 52`
ranks are one unit apart, and each later block of `2 ^ 52` ranks doubles the distance of the one
before. The last rank stands for infinity. -/
namespace EmbeddedLisp

/-- The number of magnitudes in a block of constant distance, `2 ^ 52`. -/
def Magnitude.blockSize : Nat := 0x10000000000000

/-- The rank of infinity: 2047 blocks of finite magnitudes come before it. -/
def Magnitude.infiniteRank : Nat := 2047 * blockSize

/-- The number of units in one. -/
def Magnitude.unitsPerOne : Nat := Nat.pow 2 1074

/-- The place of a magnitude among all of them, from zero up to infinity. -/
structure Magnitude where
  rank : Nat
  bounded : rank ≤ Magnitude.infiniteRank
deriving DecidableEq

namespace Magnitude

/-- The magnitude of this rank, or infinity for ranks beyond. -/
def ofRank (rank : Nat) : Magnitude := ⟨min rank infiniteRank, Nat.min_le_right _ _⟩

def zero : Magnitude := ofRank 0

def infinity : Magnitude := ofRank infiniteRank

instance : Inhabited Magnitude := ⟨zero⟩

def isZero (m : Magnitude) : Bool := m.rank == 0

def isInfinite (m : Magnitude) : Bool := m.rank == infiniteRank

/-- The exact value of a finite magnitude, in units. -/
def units (m : Magnitude) : Nat :=
  if m.rank < blockSize then m.rank
  else (blockSize + m.rank % blockSize) * Nat.pow 2 (m.rank / blockSize - 1)

/-- The magnitude nearest to `numerator / denominator` units, for a denominator that is not zero.
A tie goes to the even rank, and what is beyond the largest finite magnitude by half its distance
or more is infinite.

With `shift` doublings of the distance, the quotient falls into the block whose first rank is
`(shift + 1) * blockSize`, or into the first two if there is no doubling. -/
def round (numerator denominator : Nat) : Magnitude :=
  let shift := (numerator / denominator).log2 - 52
  let distance := denominator * Nat.pow 2 shift
  let lower := numerator / distance
  let excess := numerator % distance
  let roundsUp := distance < 2 * excess || (distance == 2 * excess && lower % 2 == 1)
  ofRank (shift * blockSize + if roundsUp then lower + 1 else lower)

@[simp] theorem rank_ofRank (rank : Nat) : (ofRank rank).rank = min rank infiniteRank := rfl

/-- A magnitude is determined by its rank. -/
@[ext] theorem ext {m n : Magnitude} (h : m.rank = n.rank) : m = n := by
  cases m
  cases n
  simp_all

end Magnitude

end EmbeddedLisp
