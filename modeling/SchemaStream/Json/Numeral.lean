import SchemaStream.Json.Basic

/-!
# Numerals

The parts of a number as it is written, and the number that it denotes.  An integer that
fits neither integer form, and whatever has a fraction or an exponent, is read as a
binary64 number: the leading digits that fit in 64 bits are rounded, and the result is
scaled by a power of ten that has itself been rounded.
-/

namespace SchemaStream

structure Numeral where
  negative : Bool
  whole : List Nat
  fraction : Option (List Nat)
  exponent : Option Int
  deriving DecidableEq, Repr

namespace Numeral

def ofDigits (digits : List Nat) : Nat := digits.foldl (fun value digit => value * 10 + digit) 0

/-- The digits read so far, with the power of ten that the others leave to them. -/
structure Significand where
  value : Nat
  power : Int
  deriving DecidableEq, Repr

def fits (s : Significand) (digit : Nat) : Bool := s.value * 10 + digit < UInt64.size

/-- The digits before the point: from the first that does not fit, each counts as a zero. -/
def readWhole (s : Significand) : List Nat → Significand
  | [] => s
  | digit :: rest =>
      if fits s digit then readWhole ⟨s.value * 10 + digit, s.power⟩ rest
      else ⟨s.value, s.power + (rest.length + 1)⟩

/-- The digits after the point: from the first that does not fit, none counts. -/
def readFraction (s : Significand) : List Nat → Significand
  | [] => s
  | digit :: rest =>
      if fits s digit then readFraction ⟨s.value * 10 + digit, s.power - 1⟩ rest else s

def significand (n : Numeral) : Significand :=
  let s := readFraction (readWhole ⟨0, 0⟩ n.whole) (n.fraction.getD [])
  ⟨s.value, s.power + n.exponent.getD 0⟩

def largestPower : Nat := 308

def powerOfTen (n : Nat) : Binary64 := (Binary64.ofNat? (Nat.pow 10 n)).getD (.zero false)

def dividedBy (x : Binary64) (power : Nat) : Binary64 :=
  (x.div? (powerOfTen power)).getD (.zero false)

def dividedRepeatedly (x : Binary64) : Nat → Binary64
  | 0 => x
  | steps + 1 => if x.isZero then x else dividedRepeatedly (dividedBy x largestPower) steps

/-- A large power is divided out in steps of the largest that has a finite value. -/
def scaledDown (x : Binary64) (power : Nat) : Binary64 :=
  let steps := (power - 1) / largestPower
  dividedBy (dividedRepeatedly x steps) (power - steps * largestPower)

def scaled? (s : Significand) : Option Binary64 := do
  let x ← Binary64.ofNat? s.value
  if x.isZero then some x
  else if 0 ≤ s.power then
    if s.power ≤ largestPower then x.mul? (powerOfTen s.power.toNat) else none
  else some (scaledDown x (-s.power).toNat)

def binary? (n : Numeral) : Option Number :=
  (scaled? n.significand).map fun x => .binary { x with negative := n.negative }

def wholeValue (n : Numeral) : Nat := ofDigits n.whole

/-- Nothing when the number is beyond the finite range.  A negative zero is no integer. -/
def number? (n : Numeral) : Option Number :=
  if n.fraction.isSome || n.exponent.isSome then n.binary?
  else if n.negative then
    if h : n.wholeValue - 1 < UInt64.size / 2 then
      if n.wholeValue = 0 then n.binary? else some (.negative ⟨n.wholeValue - 1, h⟩)
    else n.binary?
  else if h : n.wholeValue < UInt64.size then some (.natural ⟨n.wholeValue, h⟩)
  else n.binary?

end Numeral

end SchemaStream
