import IncrementalJson.Float.Format

/-!
# Shortest decimal that reads back

A finite number stands for every real that rounds to it: an interval around it
that reaches half way to either neighbour, ends included exactly if its
significand is even.  `FloatFormat.shortest` takes the coarsest decimal grid
with a point in that interval, and there the point nearest to the number, the
even one of two.  If any point of a grid lies in the interval, so does one of
the number's two neighbours on that grid, so only those are tried.
-/

set_option autoImplicit false

namespace IncrementalJson

structure Decimal where
  digits : Nat
  exponent : Int
  deriving DecidableEq, Repr

/-- The reals that round to one positive number: they reach from `low` to `high`, and the
number itself is `middle`, all in units of `num / den`. -/
structure RoundingInterval where
  low : Nat
  middle : Nat
  high : Nat
  closed : Bool
  num : Nat
  den : Nat
  deriving DecidableEq, Repr

def decimalPosition (num den : Nat) : Int :=
  let estimate : Int := decimalLength num - decimalLength den
  if den * 10 ^ estimate.toNat ≤ num * 10 ^ (-estimate).toNat then estimate + 1 else estimate

namespace RoundingInterval

def holds (interval : RoundingInterval) (exponent : Int) (point : Nat) : Bool :=
  let up := interval.num * 10 ^ (-exponent).toNat
  let scaled := point * (interval.den * 10 ^ exponent.toNat)
  if interval.closed then interval.low * up ≤ scaled && scaled ≤ interval.high * up
  else interval.low * up < scaled && scaled < interval.high * up

/-- The point of the grid of `10 ^ exponent` nearest to the middle among those in the
interval. -/
def nearest? (interval : RoundingInterval) (exponent : Int) : Option Nat :=
  let num := interval.middle * interval.num * 10 ^ (-exponent).toNat
  let den := interval.den * 10 ^ exponent.toNat
  let below := num / den
  let rounded := roundHalfEven num den
  let other := if rounded = below then below + 1 else below
  if interval.holds exponent rounded then some rounded
  else if interval.holds exponent other then some other
  else none

end RoundingInterval

def Decimal.trim : Nat → Decimal → Decimal
  | 0, decimal => decimal
  | fuel + 1, decimal =>
    if decimal.digits ≠ 0 ∧ decimal.digits % 10 = 0 then
      Decimal.trim fuel ⟨decimal.digits / 10, decimal.exponent + 1⟩
    else decimal

namespace FloatFormat

/-- The interval of a positive number; the lower neighbour of a power of two is nearer. -/
def roundingInterval (format : FloatFormat) (significand : Nat) (exponent : Int) :
    RoundingInterval where
  low :=
    if significand = format.fieldUnit ∧ format.minExponent < exponent then 4 * significand - 1
    else 4 * significand - 2
  middle := 4 * significand
  high := 4 * significand + 2
  closed := significand % 2 = 0
  num := 2 ^ (exponent - 2).toNat
  den := 2 ^ (2 - exponent).toNat

def maxDigits (format : FloatFormat) : Nat :=
  format.precision * 30103 / 100000 + 2

def shortest (format : FloatFormat) (significand : Nat) (exponent : Int) : Decimal :=
  let interval := format.roundingInterval significand exponent
  let position := decimalPosition (interval.middle * interval.num) interval.den
  let hit := (List.range format.maxDigits).findSome? fun (count : Nat) =>
    let grid := position - (count + 1)
    (interval.nearest? grid).map fun point => (⟨point, grid⟩ : Decimal)
  Decimal.trim format.maxDigits (hit.getD ⟨0, 0⟩)

end FloatFormat

end IncrementalJson
