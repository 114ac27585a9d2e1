/-!
# Calendar

Dates of the proleptic Gregorian calendar, with a year zero, and times of day to the nanosecond.
`Date.isValid_next` says that the day after a valid date is valid, and `Date.prev_next` that the day
before that is the date itself. The calendar of values is bounded; `inRange` tells which dates it
holds.
-/

namespace XPath.Time

def isLeapYear (year : Int) : Bool := year % 4 = 0 && (year % 100 ≠ 0 || year % 400 = 0)

def daysInMonth (year : Int) (month : Nat) : Nat :=
  match month with
  | 2 => if isLeapYear year then 29 else 28
  | 4 | 6 | 9 | 11 => 30
  | _ => 31

theorem daysInMonth_pos (year : Int) (month : Nat) : 28 ≤ daysInMonth year month := by
  unfold daysInMonth
  split
  · split <;> decide
  all_goals decide

structure Date where
  year : Int
  month : Nat
  day : Nat
  deriving Repr, DecidableEq

namespace Date

/-- The date exists in the calendar. -/
def isValid (d : Date) : Bool :=
  1 ≤ d.month && d.month ≤ 12 && 1 ≤ d.day && d.day ≤ daysInMonth d.year d.month

/-- The years that values may have. -/
def inRange (d : Date) : Bool := -262143 ≤ d.year && d.year ≤ 262142

def ofYmd? (year : Int) (month day : Nat) : Option Date :=
  let d : Date := ⟨year, month, day⟩
  if d.isValid && d.inRange then some d else none

/-- The following day. -/
def next (d : Date) : Date :=
  if d.day < daysInMonth d.year d.month then ⟨d.year, d.month, d.day + 1⟩
  else if d.month < 12 then ⟨d.year, d.month + 1, 1⟩
  else ⟨d.year + 1, 1, 1⟩

/-- The preceding day. -/
def prev (d : Date) : Date :=
  if 1 < d.day then ⟨d.year, d.month, d.day - 1⟩
  else if 1 < d.month then ⟨d.year, d.month - 1, daysInMonth d.year (d.month - 1)⟩
  else ⟨d.year - 1, 12, 31⟩

theorem isValid_next {d : Date} (h : d.isValid = true) : d.next.isValid = true := by
  simp only [isValid, Bool.and_eq_true, decide_eq_true_eq] at h ⊢
  have hpos := daysInMonth_pos d.year (d.month + 1)
  unfold next
  split
  · simp only; omega
  · split
    · simp only; omega
    · have := daysInMonth_pos (d.year + 1) 1
      simp only; omega

theorem prev_next {d : Date} (h : d.isValid = true) : d.next.prev = d := by
  simp only [isValid, Bool.and_eq_true, decide_eq_true_eq] at h
  obtain ⟨y, m, n⟩ := d
  simp only at h
  unfold next
  simp only
  split
  · unfold prev
    simp only
    rw [if_pos (by omega)]
    simp
  · split
    · unfold prev
      simp only
      rw [if_neg (by omega), if_pos (by omega)]
      have : daysInMonth y m = n := by omega
      simp [this]
    · have hm : m = 12 := by omega
      subst hm
      have hd : daysInMonth y 12 = 31 := rfl
      have : n = 31 := by omega
      subst this
      unfold prev
      simp

end Date

structure TimeOfDay where
  hour : Nat
  minute : Nat
  second : Nat
  nano : Nat
  deriving Repr, DecidableEq

namespace TimeOfDay

def midnight : TimeOfDay := ⟨0, 0, 0, 0⟩

/-- Seconds since midnight. -/
def seconds (t : TimeOfDay) : Nat := t.hour * 3600 + t.minute * 60 + t.second

/-- The time a number of seconds after midnight, with nanoseconds. -/
def ofSeconds (seconds nano : Nat) : TimeOfDay :=
  ⟨seconds / 3600, seconds / 60 % 60, seconds % 60, nano⟩

end TimeOfDay

/-- A date and a time of day, without a place on earth. -/
structure Moment where
  date : Date
  time : TimeOfDay
  deriving Repr, DecidableEq

namespace Moment

/-- A number that grows with time; it decides equality and order of moments. -/
def ordinal (m : Moment) : Int :=
  ((m.date.year * 12 + m.date.month) * 31 + m.date.day) * (86400 * 1000000000) +
    (m.time.seconds * 1000000000 + m.time.nano : Nat)

/-- The moment a number of seconds earlier, for less than a day either way. -/
def minusSeconds (m : Moment) (offset : Int) : Moment :=
  let s : Int := m.time.seconds - offset
  if s < 0 then ⟨m.date.prev, .ofSeconds (s + 86400).toNat m.time.nano⟩
  else if s < 86400 then ⟨m.date, .ofSeconds s.toNat m.time.nano⟩
  else ⟨m.date.next, .ofSeconds (s - 86400).toNat m.time.nano⟩

end Moment

end XPath.Time
