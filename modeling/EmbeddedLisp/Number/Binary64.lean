import EmbeddedLisp.Number.Magnitude

/-! The floating-point numbers of the language: the values of IEEE 754 binary64. A number is a sign
and a magnitude, so zero and infinity come with either sign, or it is not a number at all.

Each operation forms the exact result in units of the least magnitude and rounds it once, to the
nearest number with ties to even. -/
namespace EmbeddedLisp

inductive Binary64 where
  | nan (negative : Bool)
  | signed (negative : Bool) (magnitude : Magnitude)
deriving DecidableEq

namespace Binary64

def zero : Binary64 := .signed false .zero

def infinity : Binary64 := .signed false .infinity

instance : Inhabited Binary64 := ⟨zero⟩

/-- The number whose encoding is this word: a sign bit above 63 bits of rank. The words above the
rank of infinity are the encodings of what is not a number. -/
def ofBits (word : UInt64) : Binary64 :=
  let negative := 0x8000000000000000 ≤ word.toNat
  let rank := word.toNat % 0x8000000000000000
  if bounded : rank ≤ Magnitude.infiniteRank then .signed negative ⟨rank, bounded⟩
  else .nan negative

def isNaN : Binary64 → Bool
  | .nan _ => true
  | .signed _ _ => false

def isInfinite : Binary64 → Bool
  | .nan _ => false
  | .signed _ m => m.isInfinite

def isZero : Binary64 → Bool
  | .nan _ => false
  | .signed _ m => m.isZero

def isNegative : Binary64 → Bool
  | .nan negative => negative
  | .signed negative _ => negative

def isFinite (x : Binary64) : Bool := !x.isNaN && !x.isInfinite

/-- The same number under another sign. What is not a number has a sign, too. -/
def withSign (x : Binary64) (negative : Bool) : Binary64 :=
  match x with
  | .nan _ => .nan negative
  | .signed _ m => .signed negative m

def abs (x : Binary64) : Binary64 := x.withSign false

/-- The magnitude of `x` under the sign of `y`. -/
def copySign (x y : Binary64) : Binary64 := x.withSign y.isNegative

/-- The number nearest to a whole number of units. A sum of zero carries the sign given for it. -/
def ofUnits (negativeZero : Bool) (units : Int) : Binary64 :=
  if units = 0 then .signed negativeZero .zero
  else .signed (units < 0) (.round units.natAbs 1)

/-- The number nearest to an integer. -/
def ofInt (n : Int) : Binary64 := ofUnits false (n * Magnitude.unitsPerOne)

/-- The exact value of a finite number in units, with its sign. -/
def units : Binary64 → Int
  | .nan _ => 0
  | .signed negative m => if negative then -(m.units : Int) else m.units

/-- The sum of a number and its opposite is the positive zero. -/
def add : Binary64 → Binary64 → Binary64
  | .nan s, _ => .nan s
  | _, .nan s => .nan s
  | x@(.signed s m), y@(.signed t n) =>
    if m.isInfinite then
      if n.isInfinite && s != t then .nan false else x
    else if n.isInfinite then y
    else ofUnits (s && t) (x.units + y.units)

/-- The sum with the opposite of a number. What is not a number has no opposite and is handed on as
it is. -/
def sub (x : Binary64) : Binary64 → Binary64
  | .nan s => x.add (.nan s)
  | .signed s m => x.add (.signed (!s) m)

/-- The product is rounded once, from the product of the units. -/
def mul : Binary64 → Binary64 → Binary64
  | .nan s, _ => .nan s
  | _, .nan s => .nan s
  | .signed s m, .signed t n =>
    if m.isInfinite || n.isInfinite then
      if m.isZero || n.isZero then .nan false else .signed (s != t) .infinity
    else .signed (s != t) (.round (m.units * n.units) Magnitude.unitsPerOne)

def div : Binary64 → Binary64 → Binary64
  | .nan s, _ => .nan s
  | _, .nan s => .nan s
  | .signed s m, .signed t n =>
    if m.isInfinite then
      if n.isInfinite then .nan false else .signed (s != t) .infinity
    else if n.isInfinite then .signed (s != t) .zero
    else if n.isZero then
      if m.isZero then .nan false else .signed (s != t) .infinity
    else .signed (s != t) (.round (m.units * Magnitude.unitsPerOne) n.units)

/-- What is left of the dividend after whole multiples of the divisor, with the sign of the
dividend. The result is always exact. -/
def remainder : Binary64 → Binary64 → Binary64
  | .nan s, _ => .nan s
  | _, .nan s => .nan s
  | x@(.signed s m), .signed _ n =>
    if m.isInfinite || n.isZero then .nan false
    else if n.isInfinite then x
    else .signed s (.round (m.units % n.units) 1)

/-- The whole number that `choose` makes of the sign, of the whole part of the magnitude, and of
whether something is cut off. The sign stays, also on zero. -/
def toWhole (choose : (negative : Bool) → (whole : Nat) → (inexact : Bool) → Nat) :
    Binary64 → Binary64
  | .nan s => .nan s
  | .signed s m =>
    if m.isInfinite then .signed s m
    else
      let whole := m.units / Magnitude.unitsPerOne
      let inexact := m.units % Magnitude.unitsPerOne != 0
      .signed s (.round (choose s whole inexact * Magnitude.unitsPerOne) 1)

def trunc : Binary64 → Binary64 := toWhole fun _ whole _ => whole

def floor : Binary64 → Binary64 :=
  toWhole fun negative whole inexact => if negative && inexact then whole + 1 else whole

def ceil : Binary64 → Binary64 :=
  toWhole fun negative whole inexact => if !negative && inexact then whole + 1 else whole

/-- The place of a number in increasing order. Both zeros have place zero. -/
def place (negative : Bool) (m : Magnitude) : Int :=
  if negative then -(m.rank : Int) else m.rank

/-- The order of two numbers. What is not a number is not ordered, not even with itself. -/
def compare? : Binary64 → Binary64 → Option Ordering
  | .signed s m, .signed t n => some (compare (place s m) (place t n))
  | _, _ => none

/-- Equality of numbers as numbers: the zeros are equal and what is not a number is not. -/
def numericallyEqual (x y : Binary64) : Bool := x.compare? y == some .eq

end Binary64

end EmbeddedLisp
