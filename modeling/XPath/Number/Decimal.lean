import XPath.Number.Numeral

/-!
# Decimal numbers

A decimal is a sign, a coefficient below `2 ^ 96` and a scale of at most 28: its magnitude is
`coefficient / 10 ^ scale`. The scale records how many places were written; two decimals with
different scales may be equal as numbers (`compare`). An operation computes the exact result and
rounds it, ties to even, to the largest scale whose coefficient fits; it has no result when not even
scale zero fits. A zero with a minus sign comes from `neg`, or from a product too small for every
scale; a decimal made of parts has none.
-/

namespace XPath.Number

open XPath.Text

/-- The coefficients lie below this bound. -/
def coefficientLimit : Nat := Nat.pow 2 96

/-- The largest scale. -/
def maxScale : Nat := 28

structure Decimal where
  negative : Bool
  coefficient : Nat
  scale : Nat
  coefficient_lt : coefficient < coefficientLimit
  scale_le : scale ≤ maxScale
  deriving Repr, DecidableEq

namespace Decimal

/-- The decimal with the given parts, if they are within bounds. A zero gets no sign. -/
def ofParts? (negative : Bool) (coefficient scale : Nat) : Option Decimal :=
  if h : coefficient < coefficientLimit ∧ scale ≤ maxScale then
    some ⟨negative && coefficient ≠ 0, coefficient, scale, h.1, h.2⟩
  else none

def zero : Decimal := ⟨false, 0, 0, by decide, by decide⟩

instance : Inhabited Decimal := ⟨zero⟩

def isZero (d : Decimal) : Bool := d.coefficient = 0

/-- Negative and not a zero with a minus sign. -/
def isBelowZero (d : Decimal) : Bool := d.negative && !d.isZero

protected def neg (d : Decimal) : Decimal := { d with negative := !d.negative }

instance : Neg Decimal := ⟨Decimal.neg⟩

def abs (d : Decimal) : Decimal := { d with negative := false }

/-- The coefficient with its sign. -/
def signed (d : Decimal) : Int := if d.negative then -(d.coefficient : Int) else d.coefficient

/-- The value in units of `10 ^ -28`; it decides equality and order. -/
def units (d : Decimal) : Int := d.signed * Nat.pow 10 (maxScale - d.scale)

protected def compare (x y : Decimal) : Ordering := Ord.compare x.units y.units

/-- Equality as numbers. -/
def equal (x y : Decimal) : Bool := x.units = y.units

/-- The decimal of an integer, if it fits. -/
def ofInt? (n : Int) : Option Decimal := ofParts? (n < 0) n.natAbs 0

/-- The decimal of an integer; integers of up to 96 bits are exact. -/
def ofInt (n : Int) : Decimal := (ofInt? n).getD zero

/-- The quotient `num / den` at the largest scale up to `scale` whose rounded coefficient fits. -/
def fit? (negative : Bool) (num den : Nat) : Nat → Option Decimal
  | 0 => ofParts? negative (roundDiv .toEven num den) 0
  | scale + 1 =>
    match ofParts? negative (roundDiv .toEven (num * Nat.pow 10 (scale + 1)) den) (scale + 1) with
    | some d => some d
    | none => fit? negative num den scale

/-- A zero operand leaves the other one as it is. -/
protected def add? (x y : Decimal) : Option Decimal :=
  if x.isZero then some y
  else if y.isZero then some x
  else
    let scale := max x.scale y.scale
    let n := x.signed * Nat.pow 10 (scale - x.scale) + y.signed * Nat.pow 10 (scale - y.scale)
    fit? (n < 0) n.natAbs (Nat.pow 10 scale) scale

protected def sub? (x y : Decimal) : Option Decimal :=
  if x.isZero then some (if y.isZero then y else -y) else x.add? (-y)

/-- A coefficient of up to 32 bits. -/
def isShort (d : Decimal) : Bool := d.coefficient < Nat.pow 2 32

/-- Where both coefficients are short a product that rounds to zero has no sign, and no places
either if more than 19 had to be dropped. Any other product has the sign of its factors, even if it
rounds to zero. -/
protected def mul? (x y : Decimal) : Option Decimal :=
  let scale := x.scale + y.scale
  let negative := x.negative != y.negative
  let product := fit? negative (x.coefficient * y.coefficient) (Nat.pow 10 scale)
    (min scale maxScale)
  if x.isZero || y.isZero then some zero
  else if x.isShort && y.isShort then
    if maxScale + 19 < scale then some zero else product
  else product.map fun d => { d with negative := negative }

/-- Removes trailing zeros of the fraction. -/
def stripZeros (coefficient : Nat) : Nat → Nat × Nat
  | 0 => (coefficient, 0)
  | scale + 1 =>
    if coefficient % 10 = 0 then stripZeros (coefficient / 10) scale else (coefficient, scale + 1)

/-- The same number at its least scale. -/
def normalize (d : Decimal) : Decimal :=
  let (c, s) := stripZeros d.coefficient d.scale
  (ofParts? d.negative c s).getD d

/-- The integer part, toward zero. -/
def truncate (d : Decimal) : Int :=
  let n : Int := d.coefficient / Nat.pow 10 d.scale
  if d.negative then -n else n

theorem truncate_coefficient_lt (d : Decimal) :
    d.coefficient / Nat.pow 10 d.scale < coefficientLimit :=
  Nat.lt_of_le_of_lt (Nat.div_le_self _ _) d.coefficient_lt

/-- The integer part as a decimal of scale zero. -/
def trunc (d : Decimal) : Decimal :=
  ⟨d.negative, d.coefficient / Nat.pow 10 d.scale, 0, d.truncate_coefficient_lt, by decide⟩

/-- The digits with as many places as the scale says. -/
def text (d : Decimal) : List Char :=
  let ds := natDigits d.coefficient
  let ds := List.replicate (d.scale + 1 - ds.length) '0' ++ ds
  let whole := ds.length - d.scale
  let body := if d.scale = 0 then ds else ds.take whole ++ '.' :: ds.drop whole
  if d.negative then '-' :: body else body

/-- The fewest places that show the number; zero is `0`. -/
def canonicalText (d : Decimal) : List Char := if d.isZero then ['0'] else d.normalize.text

/-- Rounds the digits read so far on the next one. -/
def roundRead? (negative : Bool) (c scale next : Nat) : Option Decimal :=
  if next < 5 then ofParts? negative c scale
  else if c + 1 < coefficientLimit then ofParts? negative (c + 1) scale
  else if scale = 0 then none
  else ofParts? negative ((c + 1 + 4) / 10) (scale - 1)

/-- Takes digits after the point while they fit; the first that does not decides the rounding. -/
def readFraction? (negative : Bool) (c scale : Nat) : List Char → Option Decimal
  | [] => ofParts? negative c scale
  | digit :: rest =>
    let v := digit.toNat - 48
    if scale < maxScale ∧ c * 10 + v < coefficientLimit then
      readFraction? negative (c * 10 + v) (scale + 1) rest
    else roundRead? negative c scale v

/-- The decimal that a numeral denotes: digits beyond the capacity are dropped, rounding on the
first of them; an integer part that does not fit has no value. Zero has no sign. -/
def ofNumeral? (n : Numeral) : Option Decimal :=
  let c := digitsValue n.whole
  if c < coefficientLimit then
    readFraction? n.negative c 0 n.fraction
  else none

end Decimal

end XPath.Number
