import XPath.Number.Binary
import XPath.Text.Digits

/-!
# Shortest decimal digits of a binary number

The digits of a positive number `m * 2 ^ e` are the fewest that still lie among the reals that round
to it, and of two such choices with equally many digits the nearer one; of two equally near ones the
larger. The interval is measured in quarters of the last bit, so its ends are integers: two quarters
to either side, but one quarter downward when the number is the least one of its exponent. The ends
belong to it when the mantissa is even.
-/

namespace XPath.Number

open XPath.Text

/-- The reals that round to a number, as `lower / den` to `upper / den`. -/
structure Interval where
  lower : Nat
  value : Nat
  upper : Nat
  den : Nat
  closed : Bool
  deriving Repr, DecidableEq

/-- Whether `n / d` lies in the interval. -/
def Interval.has (i : Interval) (n d : Nat) : Bool :=
  if i.closed then i.lower * d ≤ n * i.den && n * i.den ≤ i.upper * d
  else i.lower * d < n * i.den && n * i.den < i.upper * d

/-- The reals that round to `m * 2 ^ e` in a format. -/
def Interval.around (f : Format) (m : Nat) (e : Int) : Interval :=
  let below := if m = Nat.pow 2 (f.precision - 1) ∧ f.leastExponent < e then 1 else 2
  let scale := e - 2
  let factor := Nat.pow 2 scale.natAbs
  let (mul, den) := if scale < 0 then (1, factor) else (factor, 1)
  ⟨(4 * m - below) * mul, 4 * m * mul, (4 * m + 2) * mul, den, m % 2 = 0⟩

/-- Decimal digits and the power of ten that scales them. -/
structure Digits where
  coefficient : Nat
  exponent : Int
  deriving Repr, DecidableEq

/-- The least `k` with `n / d < 10 ^ k`, for a positive quotient. -/
def decimalExponent (n d : Nat) : Int :=
  if d ≤ n then digitCount (n / d)
  else
    let j := digitCount (d / n)
    if d ≤ n * Nat.pow 10 (j - 1) then 2 - (j : Int) else 1 - (j : Int)

/-- The nearest of the two neighbours on the grid of `10 ^ k` that lies in the interval. -/
def Interval.hit? (i : Interval) (k : Int) : Option Nat :=
  let (a, b) := if k < 0 then (Nat.pow 10 k.natAbs, 1) else (1, Nat.pow 10 k.natAbs)
  let low := (i.value * a) / (i.den * b)
  let lowIn := low ≠ 0 && i.has (low * b) a
  let highIn := i.has ((low + 1) * b) a
  let nearHigh := i.den * b ≤ 2 * (i.value * a - low * (i.den * b))
  if lowIn && highIn then some (if nearHigh then low + 1 else low)
  else if lowIn then some low
  else if highIn then some (low + 1)
  else none

/-- The first grid with a hit, from the coarsest one on. -/
def Interval.search (i : Interval) (top : Int) : Nat → Nat → Digits
  | 0, n => ⟨i.value / i.den, top - n⟩
  | fuel + 1, n =>
    match i.hit? (top - n) with
    | some c => ⟨c, top - n⟩
    | none => i.search top fuel (n + 1)

/-- The shortest digits of `m * 2 ^ e`, for positive `m`. A neighbour that is a power of ten is one
digit shorter than its grid. -/
def shortestDigits (f : Format) (m : Nat) (e : Int) : Digits :=
  let i := Interval.around f m e
  let d := i.search (decimalExponent i.value i.den) 20 1
  if d.coefficient % 10 = 0 then ⟨d.coefficient / 10, d.exponent + 1⟩ else d

/-- The digits written out with a decimal point and no exponent. -/
def Digits.positional (d : Digits) : List Char :=
  let ds := natDigits d.coefficient
  if 0 ≤ d.exponent then ds ++ List.replicate d.exponent.natAbs '0'
  else
    let places := d.exponent.natAbs
    let ds := List.replicate (places + 1 - ds.length) '0' ++ ds
    let whole := ds.length - places
    ds.take whole ++ '.' :: ds.drop whole

/-- One digit, a point, at least one further digit, and an exponent of ten. -/
def Digits.scientific (d : Digits) : List Char :=
  let ds := natDigits d.coefficient
  let exponent := d.exponent + ds.length - 1
  let fraction := if ds.length ≤ 1 then ['0'] else ds.drop 1
  ds.take 1 ++ '.' :: fraction ++ 'E' :: (intText exponent).toList

end XPath.Number
