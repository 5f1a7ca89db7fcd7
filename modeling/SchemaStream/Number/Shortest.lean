import SchemaStream.Number.Binary64

/-!
# Shortest decimals

The decimal written for a binary64 number has the fewest digits among the decimals
that round to it, and is the nearest to it among those with that many digits.
Both neighbours of the number on each decimal grid are tried, coarse grids first.
-/

namespace SchemaStream

/-- The decimal `digits * 10 ^ exponent`. -/
structure Decimal where
  digits : Nat
  exponent : Int
  deriving DecidableEq, Repr

namespace Decimal

def ratio (d : Decimal) : Binary64.Ratio :=
  ⟨d.digits * Nat.pow 10 d.exponent.toNat, Nat.pow 10 (-d.exponent).toNat⟩

def digitCount (n : Nat) : Nat := (Nat.toDigits 10 n).length

/-- The exponent of the leading decimal digit of a positive fraction. -/
def leadingExponent (r : Binary64.Ratio) : Int :=
  let estimate : Int := (digitCount r.numerator : Int) - digitCount r.denominator
  let power : Binary64.Ratio := ratio ⟨1, estimate⟩
  if power.numerator * r.denominator ≤ r.numerator * power.denominator then estimate
  else estimate - 1

/-- The fractions that round to a positive magnitude: those between the midpoints to
its neighbours, the midpoints themselves when its coefficient is even. -/
def roundsTo (m : Binary64.Magnitude) (d : Decimal) : Bool :=
  let r := d.ratio
  let scaled := r.numerator * Nat.pow 2 1076
  let unit := r.denominator * Nat.pow 2 m.scale
  let below := if m.coefficient = Nat.pow 2 52 ∧ 0 < m.scale then 1 else 2
  let low := (4 * m.coefficient - below) * unit
  let high := (4 * m.coefficient + 2) * unit
  if m.coefficient % 2 = 0 then low ≤ scaled && scaled ≤ high
  else low < scaled && scaled < high

/-- The decimal on the grid of `exponent` chosen for a magnitude: the nearer of the two
neighbours that round to it, on a tie the one with the even last digit. -/
def onGrid? (m : Binary64.Magnitude) (exponent : Int) : Option Decimal :=
  let r := m.ratio
  let numerator := r.numerator * Nat.pow 10 (-exponent).toNat
  let denominator := r.denominator * Nat.pow 10 exponent.toNat
  let below : Decimal := ⟨numerator / denominator, exponent⟩
  let above : Decimal := ⟨numerator / denominator + 1, exponent⟩
  let nearest : Decimal := ⟨Binary64.roundedQuotient numerator denominator, exponent⟩
  if roundsTo m nearest then some nearest
  else if roundsTo m below then some below
  else if roundsTo m above then some above
  else none

/-- The coarsest grid tried holds only the power of ten above the magnitude, and
seventeen digits always suffice. -/
def shortest (m : Binary64.Magnitude) : Decimal :=
  let leading := leadingExponent m.ratio
  let grids := (List.range 18).map fun (count : Nat) => leading + 1 - count
  (grids.findSome? (onGrid? m)).getD ⟨0, 0⟩

/-- The digits stand before the point when their exponents lie in this range. -/
def positionalFrom : Int := -5

def positionalBelow : Int := 16

/-- An integral decimal in positional form keeps one zero after the point; an exponent
is written with its sign and without padding. -/
def chars (d : Decimal) : List Char :=
  let digits := Nat.toDigits 10 d.digits
  let leading := d.exponent + (digits.length - 1)
  if positionalFrom ≤ leading ∧ leading < positionalBelow then
    if 0 ≤ d.exponent then
      digits ++ List.replicate d.exponent.toNat '0' ++ ['.', '0']
    else if 0 ≤ leading then
      let whole := (leading + 1).toNat
      digits.take whole ++ '.' :: digits.drop whole
    else
      '0' :: '.' :: List.replicate (-leading - 1).toNat '0' ++ digits
  else
    let mantissa := match digits with
      | first :: second :: rest => first :: '.' :: second :: rest
      | single => single
    let sign := if leading < 0 then '-' else '+'
    mantissa ++ 'e' :: sign :: Nat.toDigits 10 leading.natAbs

end Decimal

namespace Binary64

def chars (x : Binary64) : List Char :=
  let body :=
    if x.isZero then ['0', '.', '0'] else (Decimal.shortest x.magnitude).chars
  if x.negative then '-' :: body else body

end Binary64

end SchemaStream
