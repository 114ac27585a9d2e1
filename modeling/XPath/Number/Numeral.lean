import XPath.Number.Binary
import XPath.Text.Blank
import XPath.Text.Digits

/-!
# Numerals

A numeral is an optional sign, digits, and optionally a point with further digits; at least one
digit stands before or after the point. A numeral with an exponent of ten denotes the binary number
nearest to its exact value.
-/

namespace XPath.Number

open XPath.Text

/-- A sign and the digits on both sides of the point. -/
structure Numeral where
  negative : Bool
  whole : List Char
  fraction : List Char
  deriving Repr, DecidableEq

/-- Separates an optional sign from the rest; true stands for minus. -/
def takeSign : List Char → Bool × List Char
  | '+' :: rest => (false, rest)
  | '-' :: rest => (true, rest)
  | s => (false, s)

/-- Reads `[+-]? digits? ('.' digits?)?` with at least one digit. -/
def Numeral.read? (s : List Char) : Option Numeral :=
  let (negative, body) := takeSign s
  let (whole, fraction) := (cutAt '.' body).getD (body, [])
  if (whole ≠ [] ∨ fraction ≠ []) ∧ allDigits whole ∧ allDigits fraction then
    some ⟨negative, whole, fraction⟩
  else none

/-- Reads `[+-]? digits`. -/
def readInteger? (s : List Char) : Option Int :=
  let (negative, body) := takeSign s
  if body ≠ [] ∧ allDigits body then
    let n : Int := digitsValue body
    some (if negative then -n else n)
  else none

/-- The number nearest to `coefficient * 10 ^ exponent`. Exponents far outside the format are
settled without computing the power. -/
def ofScientific (f : Format) (negative : Bool) (coefficient : Nat) (exponent : Int) : Binary f :=
  if coefficient = 0 then .zero negative
  else
    let magnitude := exponent + digitCount coefficient
    if 400 < magnitude then .infinite negative
    else if magnitude < -400 then .zero negative
    else if exponent < 0 then .ofRatio negative coefficient (Nat.pow 10 exponent.natAbs)
    else .ofRatio negative (coefficient * Nat.pow 10 exponent.natAbs) 1

/-- The number that a numeral scaled by a power of ten denotes. -/
def Numeral.toBinary (f : Format) (n : Numeral) (exponent : Int) : Binary f :=
  ofScientific f n.negative (digitsValue (n.whole ++ n.fraction)) (exponent - n.fraction.length)

/-- Reads a numeral with an optional exponent after `e` or `E`. -/
def readScientific? (f : Format) (s : List Char) : Option (Binary f) :=
  let isMark (c : Char) := c == 'e' || c == 'E'
  let mantissa := s.takeWhile (!isMark ·)
  match s.dropWhile (!isMark ·) with
  | [] => (Numeral.read? mantissa).map (·.toBinary f 0)
  | _ :: exponent =>
    match Numeral.read? mantissa, readInteger? exponent with
    | some n, some e => some (n.toBinary f e)
    | _, _ => none

end XPath.Number
