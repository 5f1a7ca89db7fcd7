/-!
# Finite binary64 numbers

The finite magnitudes of the format form one increasing sequence, and a number is
a sign with a place in that sequence: place `e * 2 ^ 52 + f` holds the magnitude
with biased exponent `e` and fraction `f`.  All arithmetic is exact on fractions of
natural numbers and rounds once, to the nearest magnitude, an exact tie going to the
even place.
-/

namespace SchemaStream

structure Binary64 where
  negative : Bool
  place : Fin (2047 * Nat.pow 2 52)
  deriving DecidableEq, Repr

namespace Binary64

/-- A magnitude is `coefficient * 2 ^ (scale - 1074)`. -/
structure Magnitude where
  coefficient : Nat
  scale : Nat
  deriving DecidableEq, Repr

/-- A fraction of natural numbers; `denominator` is positive wherever one is built here. -/
structure Ratio where
  numerator : Nat
  denominator : Nat
  deriving DecidableEq, Repr

def magnitude (x : Binary64) : Magnitude :=
  let exponent := x.place.val / Nat.pow 2 52
  let fraction := x.place.val % Nat.pow 2 52
  if exponent = 0 then ⟨fraction, 0⟩ else ⟨Nat.pow 2 52 + fraction, exponent - 1⟩

def Magnitude.ratio (m : Magnitude) : Ratio :=
  ⟨m.coefficient * Nat.pow 2 m.scale, Nat.pow 2 1074⟩

def zero (negative : Bool) : Binary64 := ⟨negative, ⟨0, by decide⟩⟩

def isZero (x : Binary64) : Bool := x.place.val == 0

def isIntegral (x : Binary64) : Bool :=
  let r := x.magnitude.ratio
  r.numerator % r.denominator == 0

/-- The two zeros are the same number. -/
def same (x y : Binary64) : Bool := x == y || (x.isZero && y.isZero)

/-- The quotient rounded to the nearest natural number, a tie to the even one. -/
def roundedQuotient (numerator denominator : Nat) : Nat :=
  let quotient := numerator / denominator
  let twice := 2 * (numerator % denominator)
  if twice < denominator then quotient
  else if denominator < twice then quotient + 1
  else quotient + quotient % 2

/-- The place of the magnitude nearest to a positive fraction, in the sequence
continued past the largest finite magnitude. -/
def nearestPlace (r : Ratio) : Nat :=
  let shifted := r.numerator * Nat.pow 2 1074
  let scale := shifted.log2 - r.denominator.log2 - 53
  let scale :=
    if Nat.pow 2 53 ≤ shifted / (r.denominator * Nat.pow 2 scale) then scale + 1 else scale
  scale * Nat.pow 2 52 + roundedQuotient shifted (r.denominator * Nat.pow 2 scale)

/-- The nearest finite number, or nothing when the magnitude is out of range. -/
def ofRatio? (negative : Bool) (r : Ratio) : Option Binary64 :=
  let place := if r.numerator = 0 then 0 else nearestPlace r
  if h : place < 2047 * Nat.pow 2 52 then some ⟨negative, ⟨place, h⟩⟩ else none

def ofNat? (n : Nat) : Option Binary64 := ofRatio? false ⟨n, 1⟩

def mul? (x y : Binary64) : Option Binary64 :=
  let a := x.magnitude.ratio
  let b := y.magnitude.ratio
  ofRatio? (x.negative != y.negative)
    ⟨a.numerator * b.numerator, a.denominator * b.denominator⟩

/-- Division by zero has no finite value. -/
def div? (x y : Binary64) : Option Binary64 :=
  let a := x.magnitude.ratio
  let b := y.magnitude.ratio
  if b.numerator = 0 then none
  else ofRatio? (x.negative != y.negative)
    ⟨a.numerator * b.denominator, a.denominator * b.numerator⟩

end Binary64

end SchemaStream
