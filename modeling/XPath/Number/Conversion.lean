import XPath.Number.Decimal

/-!
# Between decimal and binary numbers

A decimal becomes a double by adding its integer part and its fraction as doubles and rounding the
sum to the places that were written. A double `m * 2 ^ e` becomes a decimal by writing it as
`m * 5 ^ -e * 10 ^ e` and working the power of five into the coefficient one factor at a time; what
is beyond 52 bits of coefficient is then rounded away in the fraction.
-/

namespace XPath.Number

namespace Decimal

/-- The double for a decimal. -/
def toDouble (d : Decimal) : Double :=
  if d.scale = 0 then .ofInt d.signed
  else
    let power := Nat.pow 10 d.scale
    let fraction : Double := .ofInt (d.coefficient % power) / .ofInt power
    let whole : Double := .ofInt (d.coefficient / power)
    let magnitude :=
      if fraction.isZero then whole
      else ((whole + fraction) * .ofInt power).roundHalfAway / .ofInt power
    if d.negative then -magnitude else magnitude

/-- A coefficient and the power of ten that scales it. -/
structure Scaled where
  bits : Nat
  exponent : Int
  deriving Repr, DecidableEq

/-- Works in a factor `5 ^ n`: an even coefficient is halved and the power of ten raised instead;
so is, dropping a bit, one that five times would not fit. -/
def Scaled.timesFive (s : Scaled) : Nat → Scaled
  | 0 => s
  | n + 1 =>
    if s.bits % 2 = 0 then timesFive ⟨s.bits / 2, s.exponent + 1⟩ n
    else if s.bits * 5 < coefficientLimit then timesFive ⟨s.bits * 5, s.exponent⟩ n
    else timesFive ⟨s.bits / 2, s.exponent + 1⟩ n

/-- Works in a divisor `5 ^ n`: while there is room the coefficient is doubled and the power of ten
lowered; after that it is divided, unless too many powers of ten are left to multiply in. -/
def Scaled.overFive? (s : Scaled) : Nat → Option Scaled
  | 0 => some s
  | n + 1 =>
    if s.bits * 2 < coefficientLimit then overFive? ⟨s.bits * 2, s.exponent - 1⟩ n
    else if s.exponent * 2 > (n : Int) + 1 then none
    else overFive? ⟨s.bits / 5, s.exponent⟩ n

/-- Multiplies `n` powers of ten into the coefficient. -/
def Scaled.timesTen? (s : Scaled) : Nat → Option Scaled
  | 0 => some s
  | n + 1 =>
    if s.bits * 10 < coefficientLimit then timesTen? ⟨s.bits * 10, s.exponent - 1⟩ n else none

/-- Drops `n` places, each rounding on its digit; nothing is left of a number below all places. -/
def Scaled.dropPlaces (s : Scaled) : Nat → Scaled
  | 0 => s
  | n + 1 =>
    if s.bits / 10 = 0 then ⟨0, 0⟩
    else dropPlaces ⟨s.bits / 10 + (if 5 ≤ s.bits % 10 then 1 else 0), s.exponent + 1⟩ n

/-- Drops places, at most `n`, while the coefficient has more than 52 bits. -/
def Scaled.toSignificant (s : Scaled) : Nat → Scaled
  | 0 => s
  | n + 1 =>
    if s.bits < Nat.pow 2 52 then s
    else toSignificant ⟨s.bits / 10 + (if 5 ≤ s.bits % 10 then 1 else 0), s.exponent + 1⟩ n

/-- The scaled coefficient for `m * 2 ^ e`. -/
def Scaled.ofBinary? (m : Nat) (e : Int) : Option Scaled := do
  let start : Scaled := ⟨m, e⟩
  let s ← if e < 0 then some (start.timesFive e.natAbs) else start.overFive? e.natAbs
  let s ← s.timesTen? s.exponent.toNat
  let s := s.dropPlaces (-(maxScale : Int) - s.exponent).toNat
  return s.toSignificant (-s.exponent).toNat

/-- The decimal for a double; none if its integer part does not fit, or if it is not finite. -/
def ofDouble? : Double → Option Decimal
  | .finite negative m e =>
    if m = 0 then some zero
    else do
      let s ← Scaled.ofBinary? m e
      let (coefficient, scale) := stripZeros s.bits (-s.exponent).toNat
      ofParts? negative coefficient scale
  | _ => none

end Decimal

end XPath.Number
