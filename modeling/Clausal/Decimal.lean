/-!
# Shortest decimals

The text of a double: of all decimals that read back as that double, one on the coarsest
power-of-ten grid, and of those the nearest. A decimal halfway between two goes up. The text is
positional whatever the magnitude, without an exponent and without a fraction of zeros.

The search is exact: a finite double is `m · 2^q`, the reals that round to it form an interval
whose ends belong to it iff `m` is even, and a grid `10^g` is tried by dividing natural numbers.
-/

namespace Clausal

/-- The number `digits · 10^exponent`. -/
structure Decimal where
  digits : Nat
  exponent : Int
  deriving Repr, DecidableEq

namespace Decimal

/-- The reals that round to one double, as three numerators over one denominator: the double
itself and the two ends of its interval. -/
structure Interval where
  low : Nat
  value : Nat
  high : Nat
  denominator : Nat
  /-- Whether the ends round to the double as well. -/
  closed : Bool
  deriving Repr, DecidableEq

namespace Interval

/-- The interval of `mantissa · 2^exponent`. In quarters of a unit in the last place it reaches
two up and two down, but only one down where the doubles below are twice as dense. -/
def ofBinary (mantissa : Nat) (exponent : Int) (denseBelow : Bool) : Interval :=
  let up := Nat.pow 2 (exponent - 2).toNat
  { low := (4 * mantissa - if denseBelow then 1 else 2) * up
    value := 4 * mantissa * up
    high := (4 * mantissa + 2) * up
    denominator := Nat.pow 2 (2 - exponent).toNat
    closed := mantissa % 2 == 0 }

/-- Whether `numerator`, over the denominator of the interval, lies in it. -/
def contains (i : Interval) (numerator : Nat) : Bool :=
  if i.closed then i.low ≤ numerator && numerator ≤ i.high
  else i.low < numerator && numerator < i.high

/-- The interval in units of `10^exponent`. -/
def scaled (i : Interval) (exponent : Int) : Interval :=
  let down := Nat.pow 10 (-exponent).toNat
  { low := i.low * down
    value := i.value * down
    high := i.high * down
    denominator := i.denominator * Nat.pow 10 exponent.toNat
    closed := i.closed }

/-- The whole number in the interval that is nearest to its value, if there is one next to the
value. Halfway between two, the larger is taken. -/
def nearest? (i : Interval) : Option Nat :=
  let below := i.value / i.denominator
  let roundsUp := i.denominator ≤ 2 * (i.value % i.denominator)
  match i.contains (below * i.denominator), i.contains ((below + 1) * i.denominator) with
  | true, true => some (if roundsUp then below + 1 else below)
  | true, false => some below
  | false, true => some (below + 1)
  | false, false => none

/-- The decimal on the coarsest of the grids `10^exponent, 10^(exponent - 1), …` that has a point
in the interval. Past the last grid tried the value is cut off. -/
def coarsest (i : Interval) : Nat → Int → Decimal
  | 0, exponent => ⟨i.value / i.denominator, exponent⟩
  | grids + 1, exponent =>
    match (i.scaled exponent).nearest? with
    | some digits => ⟨digits, exponent⟩
    | none => i.coarsest grids (exponent - 1)

/-- A grid too coarse to have a point in the interval, other than by rounding up to it. -/
def start (i : Interval) : Int :=
  ((i.high.log2 : Int) - i.denominator.log2 + 1) * 30103 / 100000 + 1

end Interval

/-- The shortest decimal in an interval; a double needs at most seventeen digits. -/
def shortest (i : Interval) : Decimal :=
  i.coarsest 40 i.start

/-- The decimal written positionally: zeros fill up to the point on either side. -/
def positional (d : Decimal) : String :=
  let digits := Nat.toDigits 10 d.digits
  let places := (-d.exponent).toNat
  if places = 0 then
    String.ofList (digits ++ List.replicate d.exponent.toNat '0')
  else
    let padded := List.replicate (places + 1 - digits.length) '0' ++ digits
    let whole := padded.length - places
    String.ofList (padded.take whole ++ '.' :: padded.drop whole)

/-- A double, taken apart. -/
inductive Parts where
  | notANumber
  | infinite (negative : Bool)
  | zero (negative : Bool)
  /-- `mantissa · 2^exponent` with a positive mantissa; `denseBelow` where the doubles below are
  twice as dense. -/
  | finite (negative : Bool) (mantissa : Nat) (exponent : Int) (denseBelow : Bool)
  deriving Repr, DecidableEq

/-- `2^52`, the weight of the implicit leading bit of a mantissa. -/
def leadingBit : Nat := 4503599627370496

/-- Take a double apart by its bits: the sign, eleven bits of exponent and the fraction. -/
def partsOf (x : Float) : Parts :=
  let bits := x.toBits.toNat
  let negative := bits / (2048 * leadingBit) == 1
  let exponent : Nat := bits / leadingBit % 2048
  let fraction := bits % leadingBit
  if exponent == 2047 then
    if fraction == 0 then .infinite negative else .notANumber
  else if exponent == 0 then
    if fraction == 0 then .zero negative else .finite negative fraction (-1074) false
  else
    .finite negative (fraction + leadingBit) ((exponent : Int) - 1075)
      (fraction == 0 && 1 < exponent)

/-- The text of a double: `NaN` without a sign, `inf`, `-inf`, `-0`, and otherwise the shortest
decimal, written positionally. -/
def text (x : Float) : String :=
  let signed (negative : Bool) (magnitude : String) :=
    if negative then "-" ++ magnitude else magnitude
  match partsOf x with
  | .notANumber => "NaN"
  | .infinite negative => signed negative "inf"
  | .zero negative => signed negative "0"
  | .finite negative mantissa exponent denseBelow =>
    signed negative (shortest (.ofBinary mantissa exponent denseBelow)).positional

end Decimal

end Clausal
