import XPath.Error
import XPath.Text.Digits
import XPath.Time.Calendar
import XPath.Types

/-!
# Date and time values

All nine date and time types share one representation: a moment and an optional offset from UTC. A
type without a date or a time part fills the gap from the last day of the reference year 1972, so
that equal values have equal moments. The reader follows the lexical forms; `text` writes the
canonical one.
-/

namespace XPath.Time

open XPath.Text

structure Temporal where
  moment : Moment
  /-- Seconds east of UTC. -/
  offset : Option Int
  deriving Repr, DecidableEq

namespace Temporal

/-- The moment in UTC; a value without an offset is taken to be in UTC already. -/
def instant (t : Temporal) : Moment := t.moment.minusSeconds (t.offset.getD 0)

/-- The calendar of values holds the instant. An offset can take it out at either end. -/
def hasInstant (t : Temporal) : Bool := t.instant.date.inRange

/-- The two values denote the same instant. -/
def sameInstant (a b : Temporal) : Bool := a.instant.ordinal = b.instant.ordinal

end Temporal

/-! ## Reading -/

/-- Separates a trailing offset: `Z`, or a sign with hours and minutes up to fourteen hours. -/
def readOffset? (s : List Char) : Option (List Char × Option Int) :=
  match s.reverse with
  | 'Z' :: body => some (body.reverse, some 0)
  | m₂ :: m₁ :: ':' :: h₂ :: h₁ :: sign :: body =>
    if sign = '+' ∨ sign = '-' then do
      let hours ← readDigits? 2 [h₁, h₂]
      let minutes ← readDigits? 2 [m₁, m₂]
      if 14 < hours ∨ 59 < minutes ∨ (hours = 14 ∧ 0 < minutes) then none
      else
        let seconds : Int := hours * 3600 + minutes * 60
        some (body.reverse, some (if sign = '-' then -seconds else seconds))
    else some (s, none)
  | _ => some (s, none)

/-- A year has at least four digits, and no leading zero if it has more. -/
def readYear? (s : List Char) : Option Int :=
  let (negative, body) := dropSign '-' s
  if body.length < 4 ∨ !allDigits body ∨ (4 < body.length ∧ body.head? = some '0') then none
  else
    let n : Int := digitsValue body
    some (if negative then -n else n)

/-- Cuts at hyphens; a leading minus stays with the first piece. -/
def datePieces (s : List Char) : List (List Char) :=
  match dropSign '-' s with
  | (false, body) => splitAt '-' body
  | (true, body) =>
    match splitAt '-' body with
    | [] => []
    | first :: rest => ('-' :: first) :: rest

def readDate? (s : List Char) : Option Date :=
  match datePieces s with
  | [y, m, d] => do Date.ofYmd? (← readYear? y) (← readDigits? 2 m) (← readDigits? 2 d)
  | _ => none

/-- Seconds with an optional fraction, which is cut after nine digits. -/
def readSeconds? (s : List Char) : Option (Nat × Nat) :=
  match cutAt '.' s with
  | none => (readDigits? 2 s).map (·, 0)
  | some (whole, fraction) =>
    if fraction ≠ [] ∧ allDigits fraction then
      (readDigits? 2 whole).map
        (·, digitsValue ((fraction ++ List.replicate 9 '0').take 9))
    else none

/-- A time of day, and whether it was written as the end of the day, `24:00:00`. -/
def readTime? (s : List Char) : Option (TimeOfDay × Bool) :=
  match splitAt ':' s with
  | [h, m, sec] => do
    let hour ← readDigits? 2 h
    let minute ← readDigits? 2 m
    let (second, nano) ← readSeconds? sec
    if hour = 24 then
      if minute = 0 ∧ second = 0 ∧ nano = 0 then some (.midnight, true) else none
    else if hour < 24 ∧ minute < 60 ∧ second < 60 then some (⟨hour, minute, second, nano⟩, false)
    else none
  | _ => none

def referenceYear : Int := 1972

/-- Removes a run of hyphens of the given length from the front. -/
def dropHyphens? : Nat → List Char → Option (List Char)
  | 0, s => some s
  | n + 1, '-' :: rest => dropHyphens? n rest
  | _ + 1, _ => none

/-- The moment of a lexical form without its offset. -/
def readMoment? (type : ItemType) (body : List Char) : Option Moment :=
  let atMidnight (d : Date) : Moment := ⟨d, .midnight⟩
  match type with
  | .dateTime | .dateTimeStamp => do
    let (d, t) ← cutAt 'T' body
    let (time, endOfDay) ← readTime? t
    let date ← readDate? d
    if endOfDay then
      if date.next.inRange then some ⟨date.next, time⟩ else none
    else some ⟨date, time⟩
  | .date => (readDate? body).map atMidnight
  | .time => (readTime? body).map fun (time, _) => ⟨⟨referenceYear, 12, 31⟩, time⟩
  | .gYear => do
    let year ← readYear? body
    (Date.ofYmd? year 1 1).map atMidnight
  | .gYearMonth =>
    match datePieces body with
    | [y, m] => do
      let year ← readYear? y
      let month ← readDigits? 2 m
      (Date.ofYmd? year month 1).map atMidnight
    | _ => none
  | .gMonth => do
    let month ← readDigits? 2 (← dropHyphens? 2 body)
    (Date.ofYmd? referenceYear month 1).map atMidnight
  | .gMonthDay => do
    let (m, d) ← cutAt '-' (← dropHyphens? 2 body)
    let month ← readDigits? 2 m
    let day ← readDigits? 2 d
    (Date.ofYmd? referenceYear month day).map atMidnight
  | .gDay => do
    let day ← readDigits? 2 (← dropHyphens? 3 body)
    (Date.ofYmd? referenceYear 12 day).map atMidnight
  | _ => none

/-- Reads a lexical form of a date or time type; a date-time stamp needs an offset. -/
def Temporal.read? (type : ItemType) (s : List Char) : Option Temporal := do
  let (body, offset) ← readOffset? (trim s)
  let moment ← readMoment? type body
  if type = .dateTimeStamp ∧ offset = none then none else some ⟨moment, offset⟩

/-- The error for a text that is no lexical form of a type. -/
def malformed (type text : String) : Error :=
  ⟨.FORG0001, "invalid lexical value for " ++ type ++ ": '" ++ text ++ "'"⟩

def Temporal.parse (type : ItemType) (text : String) : Except Error Temporal :=
  match Temporal.read? type text.toList with
  | some t => .ok t
  | none => .error (malformed type.label text)

/-- Reads a lexical form of a type given by name. -/
def Temporal.parseNamed (type : TypeName) (text : String) : Except Error Temporal :=
  match type with
  | .known t => Temporal.parse t text
  | .unknown name => .error (malformed name text)

/-! ## Writing -/

def two (n : Nat) : List Char := padded 2 n

def yearText (year : Int) : List Char :=
  if year < 0 then '-' :: padded 4 year.natAbs else padded 4 year.natAbs

def Date.text (d : Date) : List Char := yearText d.year ++ '-' :: two d.month ++ '-' :: two d.day

/-- Hours, minutes and seconds; the fraction has no trailing zeros. -/
def TimeOfDay.text (t : TimeOfDay) : List Char :=
  let whole := two t.hour ++ ':' :: two t.minute ++ ':' :: two t.second
  if t.nano = 0 then whole
  else whole ++ '.' :: ((padded 9 t.nano).reverse.dropWhile (· == '0')).reverse

def Moment.text (m : Moment) : List Char := m.date.text ++ 'T' :: m.time.text

def offsetText : Option Int → List Char
  | none => []
  | some seconds =>
    if seconds = 0 then ['Z']
    else
      let n := seconds.natAbs
      (if seconds < 0 then '-' else '+') :: two (n / 3600) ++ ':' :: two (n % 3600 / 60)

/-- The canonical form of a value of the given type. -/
def Temporal.text (type : ItemType) (t : Temporal) : List Char :=
  let d := t.moment.date
  let body := match type with
    | .date => d.text
    | .time => t.moment.time.text
    | .gYear => yearText d.year
    | .gYearMonth => yearText d.year ++ '-' :: two d.month
    | .gMonth => '-' :: '-' :: two d.month
    | .gMonthDay => '-' :: '-' :: two d.month ++ '-' :: two d.day
    | .gDay => '-' :: '-' :: '-' :: two d.day
    | _ => t.moment.text
  body ++ offsetText t.offset

end XPath.Time
