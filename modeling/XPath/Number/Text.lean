import XPath.Number.Shortest
import XPath.Number.Numeral

/-!
# Texts of floating point numbers

The canonical text of a number shows its shortest digits: positional from one millionth up to one
million, with an exponent elsewhere. A plain text never has an exponent.
-/

namespace XPath.Number

open XPath.Text

namespace Binary

variable {f : Format}

/-- Whether a magnitude is written without an exponent. -/
def isPositional (x : Binary f) : Bool :=
  let atLeast := compare (ofScientific f false 1 (-6)) x
  let below := compare x (ofScientific f false 1 6)
  (atLeast = some .lt || atLeast = some .eq) && below = some .lt

private def signed (negative : Bool) (body : List Char) : String :=
  String.ofList (if negative then '-' :: body else body)

/-- The canonical text. -/
def canonicalText : Binary f → String
  | .nan => "NaN"
  | .infinite s => if s then "-INF" else "INF"
  | .finite s m e =>
    if m = 0 then (if s then "-0" else "0")
    else
      let digits := shortestDigits f m e
      signed s (if isPositional (.finite false m e : Binary f) then digits.positional
        else digits.scientific)

/-- The shortest digits without an exponent, whatever the magnitude. -/
def plainText : Binary f → String
  | .nan => "NaN"
  | .infinite s => if s then "-inf" else "inf"
  | .finite s m e =>
    signed s (if m = 0 then ['0'] else (shortestDigits f m e).positional)

end Binary

end XPath.Number
