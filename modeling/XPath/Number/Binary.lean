import XPath.Number.Rounding

/-!
# Binary floating point

A finite number is a sign, a mantissa and an exponent: its magnitude is `mantissa * 2 ^ exponent`.
A format bounds the three. Every operation computes the exact rational result and rounds it once,
to the nearest number of the format and a tie to the even mantissa. Exponents never fall below the
least one of the format, so a finite number is an integer multiple of `2 ^ leastExponent`; that
integer (`units`) decides comparisons.
-/

namespace XPath.Number

/-- The numbers of a format are `m * 2 ^ e` with `m < 2 ^ precision` and `e` between two bounds. -/
structure Format where
  precision : Nat
  leastExponent : Int
  greatestExponent : Int
  deriving Repr, DecidableEq

/-- 64-bit numbers. -/
def Format.binary64 : Format := ⟨53, -1074, 971⟩

/-- 32-bit numbers. -/
def Format.binary32 : Format := ⟨24, -149, 104⟩

/-- A floating point number of some format. -/
inductive Binary (f : Format) where
  | nan
  | infinite (negative : Bool)
  | finite (negative : Bool) (mantissa : Nat) (exponent : Int)
  deriving Repr, DecidableEq

abbrev Double := Binary .binary64
abbrev Single := Binary .binary32

namespace Binary

variable {f g : Format}

/-- Zero with a sign. -/
def zero (negative : Bool) : Binary f := .finite negative 0 f.leastExponent

instance : Inhabited (Binary f) := ⟨zero false⟩

/-- `n * 2 ^ e` as a numerator and a denominator. -/
def scaleBy (n : Nat) (e : Int) : Nat × Nat :=
  if e < 0 then (n, Nat.pow 2 e.natAbs) else (n * Nat.pow 2 e.natAbs, 1)

/-- The exponent of the leading bit of a positive quotient. -/
def leadingExponent (num den : Nat) : Int :=
  let k : Int := (num.log2 : Int) - den.log2
  let (a, b) := if k < 0 then (num * Nat.pow 2 k.natAbs, den) else (num, den * Nat.pow 2 k.natAbs)
  if b ≤ a then k else k - 1

/-- The number nearest to `num / den`, a tie going to the even mantissa. -/
def ofRatio (negative : Bool) (num den : Nat) : Binary f :=
  if num = 0 then zero negative
  else
    let e := max f.leastExponent (leadingExponent num den - (f.precision - 1))
    let (a, b) := if e < 0 then (num * Nat.pow 2 e.natAbs, den) else (num, den * Nat.pow 2 e.natAbs)
    let m := roundDiv .toEven a b
    let (m, e) := if m = Nat.pow 2 f.precision then (m / 2, e + 1) else (m, e)
    if f.greatestExponent < e then .infinite negative else .finite negative m e

/-- The magnitude of a finite number as a quotient. -/
def ratio (mantissa : Nat) (exponent : Int) : Nat × Nat := scaleBy mantissa exponent

/-- The nearest number to an integer. -/
def ofInt (n : Int) : Binary f := ofRatio (n < 0) n.natAbs 1

def isNaN : Binary f → Bool
  | .nan => true
  | _ => false

def isFinite : Binary f → Bool
  | .finite .. => true
  | _ => false

/-- Either zero. -/
def isZero : Binary f → Bool
  | .finite _ m _ => m = 0
  | _ => false

/-- The sign bit. -/
def isNegative : Binary f → Bool
  | .nan => false
  | .infinite s => s
  | .finite s _ _ => s

protected def neg : Binary f → Binary f
  | .nan => .nan
  | .infinite s => .infinite !s
  | .finite s m e => .finite (!s) m e

/-- The same number in another format, rounded if it does not fit. -/
def convert : Binary f → Binary g
  | .nan => .nan
  | .infinite s => .infinite s
  | .finite s m e =>
    let (num, den) := ratio m e
    ofRatio s num den

/-- A finite number as a multiple of `2 ^ leastExponent`. -/
def units (f : Format) (negative : Bool) (mantissa : Nat) (exponent : Int) : Int :=
  let n : Int := mantissa * Nat.pow 2 (exponent - f.leastExponent).toNat
  if negative then -n else n

/-- Order of numbers; none when a NaN takes part. The two zeros are equal. -/
def compare : Binary f → Binary f → Option Ordering
  | .nan, _ | _, .nan => none
  | .infinite s, .infinite t => some (if s = t then .eq else if s then .lt else .gt)
  | .infinite s, .finite .. => some (if s then .lt else .gt)
  | .finite .., .infinite t => some (if t then .gt else .lt)
  | .finite s m e, .finite t n k => some (Ord.compare (units f s m e) (units f t n k))

/-- Equality of numbers; NaN equals nothing. -/
def equal (x y : Binary f) : Bool := compare x y = some .eq

/-- The number that is a given multiple of `2 ^ leastExponent`, rounded. -/
def ofUnits (n : Int) (zeroNegative : Bool) : Binary f :=
  if n = 0 then zero zeroNegative
  else
    let (num, den) := scaleBy n.natAbs f.leastExponent
    ofRatio (n < 0) num den

/-- A sum of zeros is negative only if both are; numbers that cancel leave a positive zero. -/
protected def add : Binary f → Binary f → Binary f
  | .nan, _ | _, .nan => .nan
  | .infinite s, .infinite t => if s = t then .infinite s else .nan
  | .infinite s, _ => .infinite s
  | _, .infinite t => .infinite t
  | .finite s m e, .finite t n k =>
    ofUnits (units f s m e + units f t n k) (s && t && m = 0 && n = 0)

protected def sub (x y : Binary f) : Binary f := x.add y.neg

protected def mul : Binary f → Binary f → Binary f
  | .nan, _ | _, .nan => .nan
  | .infinite s, .infinite t => .infinite (s != t)
  | .infinite s, .finite t n _ => if n = 0 then .nan else .infinite (s != t)
  | .finite s m _, .infinite t => if m = 0 then .nan else .infinite (s != t)
  | .finite s m e, .finite t n k =>
    let (num, den) := scaleBy (m * n) (e + k)
    ofRatio (s != t) num den

protected def div : Binary f → Binary f → Binary f
  | .nan, _ | _, .nan => .nan
  | .infinite _, .infinite _ => .nan
  | .infinite s, .finite t .. => .infinite (s != t)
  | .finite s .., .infinite t => zero (s != t)
  | .finite s m e, .finite t n k =>
    if n = 0 then (if m = 0 then .nan else .infinite (s != t))
    else
      let (a, b) := scaleBy m e
      let (c, d) := scaleBy n k
      ofRatio (s != t) (a * d) (b * c)

/-- The remainder of the division truncated toward zero; it is exact and has the sign of the
dividend. -/
protected def rem : Binary f → Binary f → Binary f
  | .nan, _ | _, .nan => .nan
  | .infinite _, _ => .nan
  | .finite s m e, .infinite _ => .finite s m e
  | .finite s m e, .finite _ n k =>
    if n = 0 then .nan
    else
      let r := (units f false m e).natAbs % (units f false n k).natAbs
      ofUnits (if s then -(r : Int) else r) s

instance : Neg (Binary f) := ⟨Binary.neg⟩
instance : Add (Binary f) := ⟨Binary.add⟩
instance : Sub (Binary f) := ⟨Binary.sub⟩
instance : Mul (Binary f) := ⟨Binary.mul⟩
instance : Div (Binary f) := ⟨Binary.div⟩

/-- The integer part, toward zero; none for NaN and the infinities. -/
def truncate? : Binary f → Option Int
  | .finite s m e =>
    let (num, den) := ratio m e
    let n : Int := num / den
    some (if s then -n else n)
  | _ => none

/-- The integer that a finite number equals, if it equals one. -/
def toInt? : Binary f → Option Int
  | .finite s m e =>
    let (num, den) := ratio m e
    if num % den = 0 then
      let n : Int := num / den
      some (if s then -n else n)
    else none
  | _ => none

/-- The nearest integral number, a half going away from zero. -/
def roundHalfAway : Binary f → Binary f
  | .finite s m e =>
    let (num, den) := ratio m e
    ofRatio s (roundDiv .up num den) 1
  | x => x

end Binary

/-- A single as a double; no rounding takes place. -/
def Single.widen (x : Single) : Double := x.convert

/-- The single nearest to a double. -/
def Double.narrow (x : Double) : Single := x.convert

end XPath.Number
