import XPath.Number.Decimal.Quotient
import XPath.Time.Temporal

/-!
# Durations

A duration is a number of months and a number of seconds; a sign in front of its text applies to
both. The seconds are a decimal, so the sum of the components may exceed its capacity; the reader
reports that apart from a malformed text.
-/

namespace XPath.Time

open XPath.Text XPath.Number

structure Duration where
  months : Int
  seconds : Decimal
  deriving Repr, DecidableEq

namespace Duration

/-- The number before a designator, if the designator occurs, and the text after it. Only seconds
may have a fraction. -/
def takeComponent? (s : List Char) (designator : Char) : Option (Option (List Char) × List Char) :=
  match cutAt designator s with
  | none => some (none, s)
  | some (number, rest) =>
    let points := number.count '.'
    if number ≠ [] ∧ number.all (fun c => c.isDigit || c == '.') ∧
        points ≤ (if designator = 'S' then 1 else 0) ∧
        number.head? ≠ some '.' ∧ number.getLast? ≠ some '.' then
      some (some number, rest)
    else none

/-- The texts of the components of a duration; absent ones are none. -/
structure Components where
  years : Option (List Char)
  months : Option (List Char)
  days : Option (List Char)
  hours : Option (List Char)
  minutes : Option (List Char)
  seconds : Option (List Char)
  deriving Repr, DecidableEq

/-- Splits `nYnMnDTnHnMnS` into its components; at least one is present, and one after a `T`. -/
def components? (body : List Char) : Option Components := do
  let (date, time) := match cutAt 'T' body with
    | some (d, t) => (d, some t)
    | none => (body, none)
  let (years, rest) ← takeComponent? date 'Y'
  let (months, rest) ← takeComponent? rest 'M'
  let (days, rest) ← takeComponent? rest 'D'
  if rest ≠ [] then none
  match time with
  | none =>
    if years = none ∧ months = none ∧ days = none then none
    else some ⟨years, months, days, none, none, none⟩
  | some t =>
    let (hours, rest) ← takeComponent? t 'H'
    let (minutes, rest) ← takeComponent? rest 'M'
    let (seconds, rest) ← takeComponent? rest 'S'
    if rest ≠ [] ∨ (hours = none ∧ minutes = none ∧ seconds = none) then none
    else some ⟨years, months, days, hours, minutes, seconds⟩

/-- The components that a duration type leaves out are absent. -/
def Components.suits (c : Components) (type : ItemType) : Bool :=
  let dayTime := c.days.isSome || c.hours.isSome || c.minutes.isSome || c.seconds.isSome
  let yearMonth := c.years.isSome || c.months.isSome
  !(type == .yearMonthDuration && dayTime) && !(type == .dayTimeDuration && yearMonth)

/-- Integers of components, months and totals have 64 bits. -/
def maxInteger : Nat := Nat.pow 2 63 - 1

/-- The number that a component states; absent ones are zero. -/
def count? : Option (List Char) → Option Nat
  | none => some 0
  | some digits => if digitsValue digits ≤ maxInteger then some (digitsValue digits) else none

/-- The total of the months, if it fits. -/
def Components.totalMonths? (c : Components) : Option Nat := do
  let n := (← count? c.years) * 12 + (← count? c.months)
  if n ≤ maxInteger then some n else none

/-- The seconds of the whole components, and of the seconds with their fraction. -/
def Components.secondParts? (c : Components) : Option (Decimal × Decimal) := do
  let n := (← count? c.days) * 86400 + (← count? c.hours) * 3600 + (← count? c.minutes) * 60
  let fraction ← match c.seconds with
    | none => some .zero
    | some s => (Numeral.read? s).bind Decimal.ofNumeral?
  return (.ofInt n, fraction)

/-- What becomes of a text. -/
inductive Reading where
  | value (d : Duration)
  | malformed
  /-- The seconds add up to more than a decimal holds. -/
  | tooLarge
  deriving Repr, DecidableEq

protected def neg (d : Duration) : Duration := ⟨-d.months, -d.seconds⟩

/-- Reads a lexical form of a duration type. -/
def read (type : ItemType) (s : List Char) : Reading :=
  let (negative, body) := dropSign '-' (trim s)
  match dropSign 'P' body with
  | (false, _) => .malformed
  | (true, body) =>
    match components? body with
    | none => .malformed
    | some c =>
      if !c.suits type then .malformed
      else match c.totalMonths?, c.secondParts? with
        | some months, some (whole, fraction) =>
          match whole.add? fraction with
          | some seconds =>
            let d : Duration := ⟨months, seconds⟩
            .value (if negative then d.neg else d)
          | none => .tooLarge
        | _, _ => .malformed

/-- Adding up the seconds stops the program. -/
def overflow : Error := .unidentified "the seconds of a duration exceed every decimal"

def parse (type : ItemType) (text : String) : Except Error Duration :=
  match read type text.toList with
  | .value d => .ok d
  | .malformed => .error (malformed type.label text)
  | .tooLarge => .error overflow

/-! ## Writing -/

/-- A component with its designator; a zero is left out. -/
def componentText (n : Nat) (designator : Char) : List Char :=
  if n = 0 then [] else natDigits n ++ [designator]

/-- The digits of a whole number of 64 bits, and `0` for any other. -/
def wholeText (d : Decimal) : List Char :=
  let n := d.truncate
  if n.natAbs ≤ maxInteger then (intText n).toList else ['0']

/-- Division and product of decimals that cannot fail where they are used. -/
def quotient (a b : Decimal) : Decimal := ((a.div? b).getD .zero).trunc
def rest (a b q : Decimal) : Decimal :=
  ((q.mul? b).bind a.sub?).getD .zero

/-- The canonical form of a duration of the given type. -/
def text (type : ItemType) (d : Duration) : List Char :=
  let negative := d.months < 0 || d.seconds.isBelowZero
  let months := d.months.natAbs
  let seconds := d.seconds.abs
  if months = 0 ∧ seconds.isZero then
    (if type = .yearMonthDuration then "P0M" else "PT0S").toList
  else
    let day := Decimal.ofInt 86400
    let hour := Decimal.ofInt 3600
    let minute := Decimal.ofInt 60
    let days := quotient seconds day
    let afterDays := rest seconds day days
    let hours := quotient afterDays hour
    let afterHours := rest afterDays hour hours
    let minutes := quotient afterHours minute
    let left := (rest afterHours minute minutes).normalize
    let part (n : Decimal) (designator : Char) : List Char :=
      if n.isZero then [] else wholeText n ++ [designator]
    let time := part hours 'H' ++ part minutes 'M' ++
      (if left.isZero then [] else left.text ++ ['S'])
    (if negative then ['-', 'P'] else ['P']) ++ componentText (months / 12) 'Y' ++
      componentText (months % 12) 'M' ++ part days 'D' ++ (if time = [] then [] else 'T' :: time)

end Duration

end XPath.Time
