import Mathlib.Order.Monotone.Basic
import XPath.Proofs.Time.TemporalReading

/-!
# Day numbers

The days of the calendar are numbered from the first day of year zero on (`Date.number`). The number
grows with the date (`Date.number_lt`), and by one from a day to the next, so a moment is as many
nanoseconds away from year zero as its number and its time say (`Moment.elapsed`), and the moment a
number of seconds earlier has that much less (`Moment.minusSeconds_spec`). The calendar has the instant
of a date or time if this difference lies between its first and its last moment
(`Temporal.hasInstant_iff`).
-/

namespace XPath.Time

variable {year : Int} {month : Nat}

/-! ## Years and months -/

/-- The days of the years before a year, from year zero on. -/
def daysBeforeYear (year : Int) : Int :=
  365 * year + (year + 3) / 4 - (year + 99) / 100 + (year + 399) / 400

/-- The days of a year before a month. -/
def daysBeforeMonth (year : Int) : Nat → Nat
  | 0 | 1 => 0
  | month + 2 => daysBeforeMonth year (month + 1) + daysInMonth year (month + 1)

theorem daysBeforeMonth_next (hmonth : 1 ≤ month) :
    daysBeforeMonth year (month + 1) = daysBeforeMonth year month + daysInMonth year month := by
  obtain ⟨month, rfl⟩ := Nat.exists_eq_add_of_le' hmonth
  rfl

theorem daysBeforeMonth_mono (year : Int) : Monotone (daysBeforeMonth year) := by
  refine monotone_nat_of_le_succ fun month => ?_
  cases month with
  | zero => exact Nat.le_refl _
  | succ month => exact Nat.le_add_right _ _

/-- A leap year has one day more. -/
theorem daysBeforeYear_next (year : Int) :
    daysBeforeYear (year + 1) = daysBeforeYear year + daysBeforeMonth year 13 := by
  have hdays : daysBeforeMonth year 13 = if isLeapYear year then 366 else 365 := by
    simp only [daysBeforeMonth, daysInMonth]
    split <;> rfl
  rw [hdays, daysBeforeYear, daysBeforeYear]
  split
  · next hleap =>
    simp only [isLeapYear, Bool.and_eq_true, Bool.or_eq_true, decide_eq_true_eq] at hleap
    omega
  · next hleap =>
    simp only [isLeapYear, Bool.and_eq_true, Bool.or_eq_true, decide_eq_true_eq] at hleap
    omega

theorem daysBeforeYear_mono {year later : Int} (hyear : year ≤ later) :
    daysBeforeYear year ≤ daysBeforeYear later := by
  refine monotone_int_of_le_succ (fun year => ?_) hyear
  rw [daysBeforeYear_next]
  exact Int.le_add_of_nonneg_right (Int.natCast_nonneg _)

/-! ## Dates -/

namespace Date

variable {d e : Date}

/-- The number of a day, counted from one. -/
def number (d : Date) : Int := daysBeforeYear d.year + daysBeforeMonth d.year d.month + d.day

/-- The days of a month follow those of the months before. -/
theorem number_month (hd : d.isValid) :
    daysBeforeYear d.year + daysBeforeMonth d.year d.month < d.number ∧
      d.number ≤ daysBeforeYear d.year + daysBeforeMonth d.year (d.month + 1) := by
  obtain ⟨hmonth, -, hday, hday'⟩ := isValid_iff.1 hd
  have hnext : daysBeforeMonth d.year (d.month + 1) = _ := daysBeforeMonth_next hmonth
  rw [number, hnext]
  omega

/-- The days of a year follow those of the years before. -/
theorem number_year (hd : d.isValid) :
    daysBeforeYear d.year < d.number ∧ d.number ≤ daysBeforeYear (d.year + 1) := by
  obtain ⟨hlower, hupper⟩ := number_month hd
  obtain ⟨-, hmonth, -⟩ := isValid_iff.1 hd
  have hmono : daysBeforeMonth d.year (d.month + 1) ≤ daysBeforeMonth d.year 13 :=
    daysBeforeMonth_mono d.year (Nat.succ_le_succ hmonth)
  rw [daysBeforeYear_next]
  omega

theorem parts_le (hd : d.isValid) : (1 ≤ d.month ∧ d.month ≤ 12) ∧ 1 ≤ d.day ∧ d.day ≤ 31 := by
  obtain ⟨hmonth, hmonth', hday, hday'⟩ := isValid_iff.1 hd
  refine ⟨⟨hmonth, hmonth'⟩, hday, hday'.trans ?_⟩
  unfold daysInMonth
  split
  · split <;> decide
  all_goals decide

/-- What the order of moments takes of a date. -/
def rank (d : Date) : Int := (d.year * 12 + d.month) * 31 + d.day

theorem eq_of_rank (hd : d.isValid) (he : e.isValid) (h : d.rank = e.rank) : d = e := by
  have hparts := parts_le hd
  have hparts' := parts_le he
  obtain ⟨year, month, day⟩ := d
  obtain ⟨year', month', day'⟩ := e
  simp only [mk.injEq]
  simp only [rank] at h hparts hparts'
  omega

/-- Dates are ordered by their numbers. -/
theorem number_lt (hd : d.isValid) (he : e.isValid) (hlt : d.rank < e.rank) : d.number < e.number := by
  have hparts := parts_le hd
  have hparts' := parts_le he
  rw [rank, rank] at hlt
  rcases lt_trichotomy d.year e.year with hyear | hyear | hyear
  · have hmono := daysBeforeYear_mono (Int.add_one_le_of_lt hyear)
    have hupper := (number_year hd).2
    have hlower := (number_year he).1
    omega
  · rcases lt_trichotomy d.month e.month with hm | hm | hm
    · have hmono : daysBeforeMonth e.year (d.month + 1) ≤ daysBeforeMonth e.year e.month :=
        daysBeforeMonth_mono e.year (Nat.succ_le_of_lt hm)
      have hupper := (number_month hd).2
      have hlower := (number_month he).1
      rw [hyear] at hupper
      omega
    · rw [number, number, hyear, hm]
      omega
    · omega
  · omega

theorem eq_of_number (hd : d.isValid) (he : e.isValid) (h : d.number = e.number) : d = e := by
  rcases lt_trichotomy d.rank e.rank with hlt | heq | hgt
  · exact absurd h (number_lt hd he hlt).ne
  · exact eq_of_rank hd he heq
  · exact absurd h (number_lt he hd hgt).ne'

theorem number_next (hd : d.isValid) : d.next.number = d.number + 1 := by
  obtain ⟨hmonth, hmonth', hday, hday'⟩ := isValid_iff.1 hd
  unfold next
  split
  · simp only [number]
    omega
  · have hend : daysInMonth d.year d.month = d.day := by omega
    split
    · have hmonths : daysBeforeMonth d.year (d.month + 1) = _ := daysBeforeMonth_next hmonth
      simp only [number]
      omega
    · have hlast : d.month = 12 := by omega
      have hmonths : daysBeforeMonth d.year 13 = daysBeforeMonth d.year 12 + daysInMonth d.year 12 := rfl
      have hstart : daysBeforeMonth (d.year + 1) 1 = 0 := rfl
      have hyears := daysBeforeYear_next d.year
      rw [hlast] at hend
      simp only [number, hlast, hstart]
      omega

theorem isValid_prev (hd : d.isValid) : d.prev.isValid := by
  obtain ⟨hmonth, hmonth', hday, hday'⟩ := isValid_iff.1 hd
  unfold prev
  split
  · exact isValid_iff.2 ⟨hmonth, hmonth', by omega, by omega⟩
  · split
    · exact isValid_iff.2 ⟨by omega, by omega, (daysInMonth_pos ..).trans' (by decide), le_rfl⟩
    · exact isValid_iff.2 ⟨by decide, by decide, by decide, le_rfl⟩

theorem next_prev (hd : d.isValid) : d.prev.next = d := by
  obtain ⟨year, month, day⟩ := d
  obtain ⟨hmonth, hmonth', hday, hday'⟩ := isValid_iff.1 hd
  unfold prev
  dsimp only
  split
  · rw [next, if_pos (by dsimp only; omega)]
    simp only [mk.injEq, true_and]
    omega
  · obtain rfl : day = 1 := by omega
    split
    · rw [next, if_neg (Nat.lt_irrefl _), if_pos (by dsimp only; omega)]
      simp only [mk.injEq, true_and, and_true]
      omega
    · obtain rfl : month = 1 := by omega
      have hlast : daysInMonth (year - 1) 12 = 31 := rfl
      simp only [next, hlast, Nat.lt_irrefl, if_false]
      simp only [mk.injEq, and_self, and_true]
      omega

theorem number_prev (hd : d.isValid) : d.prev.number = d.number - 1 := by
  have hnext := number_next (isValid_prev hd)
  rw [next_prev hd] at hnext
  omega

/-- The first day of the calendar of values. -/
def first : Date := ⟨-262143, 1, 1⟩

/-- The last day of the calendar of values. -/
def last : Date := ⟨262142, 12, 31⟩

/-- The calendar of values has the days from the first to the last one. -/
theorem inRange_iff (hd : d.isValid) :
    d.inRange ↔ first.number ≤ d.number ∧ d.number ≤ last.number := by
  obtain ⟨hlower, hupper⟩ := number_year hd
  have hfirst : first.number = daysBeforeYear (-262143) + 1 := rfl
  have hlast : last.number = daysBeforeYear (262142 + 1) := rfl
  rw [inRange, Bool.and_eq_true, decide_eq_true_iff, decide_eq_true_iff, hfirst, hlast]
  constructor
  · rintro ⟨hy, hy'⟩
    have := daysBeforeYear_mono hy
    have := daysBeforeYear_mono (Int.add_le_add_right hy' 1)
    omega
  · rintro ⟨hn, hn'⟩
    constructor
    · by_contra hlt
      have := daysBeforeYear_mono (Int.add_one_le_of_lt (Int.not_le.1 hlt))
      omega
    · by_contra hlt
      have := daysBeforeYear_mono (Int.add_one_le_of_lt (Int.not_le.1 hlt))
      omega

end Date

/-! ## Moments -/

namespace TimeOfDay

variable {t : TimeOfDay} {seconds nano : Nat}

theorem IsValid.seconds_lt (ht : t.IsValid) : t.seconds < 86400 := by
  obtain ⟨hhour, hminute, hsecond, -⟩ := ht
  rw [seconds]
  omega

theorem seconds_ofSeconds (seconds nano : Nat) : (ofSeconds seconds nano).seconds = seconds := by
  show seconds / 3600 * 3600 + seconds / 60 % 60 * 60 + seconds % 60 = seconds
  omega

theorem nano_ofSeconds (seconds nano : Nat) : (ofSeconds seconds nano).nano = nano := rfl

theorem isValid_ofSeconds (hs : seconds < 86400) (hn : nano < 10 ^ 9) :
    (ofSeconds seconds nano).IsValid := by
  constructor
  · exact Nat.div_lt_of_lt_mul hs
  · exact Nat.mod_lt _ (by decide)
  · exact Nat.mod_lt _ (by decide)
  · exact hn

end TimeOfDay

namespace Moment

variable {m n : Moment} {offset : Int}

structure IsValid (m : Moment) : Prop where
  date : m.date.isValid
  time : m.time.IsValid

/-- The nanoseconds from the day before year zero to a moment. -/
def elapsed (m : Moment) : Int := (m.date.number * 86400 + m.time.seconds) * 10 ^ 9 + m.time.nano

theorem elapsed_lt (hm : m.IsValid) (hn : n.IsValid) (hlt : m.ordinal < n.ordinal) :
    m.elapsed < n.elapsed := by
  have hs := hm.time.seconds_lt
  have hs' := hn.time.seconds_lt
  have hnano := hm.time.nano
  have hnano' := hn.time.nano
  rw [ordinal, ordinal, ← Date.rank, ← Date.rank] at hlt
  rw [elapsed, elapsed]
  rcases lt_trichotomy m.date.rank n.date.rank with hrank | hrank | hrank
  · have hday := Date.number_lt hm.date hn.date hrank
    omega
  · rw [Date.eq_of_rank hm.date hn.date hrank] at hlt ⊢
    omega
  · omega

theorem elapsed_eq (hm : m.IsValid) (hn : n.IsValid) (heq : m.ordinal = n.ordinal) :
    m.elapsed = n.elapsed := by
  have hs := hm.time.seconds_lt
  have hs' := hn.time.seconds_lt
  have hnano := hm.time.nano
  have hnano' := hn.time.nano
  rw [ordinal, ordinal, ← Date.rank, ← Date.rank] at heq
  have hdate : m.date = n.date := Date.eq_of_rank hm.date hn.date (by omega)
  rw [elapsed, elapsed, hdate]
  omega

/-- The order of moments is that of what has elapsed. -/
theorem compare_ordinal (hm : m.IsValid) (hn : n.IsValid) :
    Ord.compare m.ordinal n.ordinal = Ord.compare m.elapsed n.elapsed := by
  rcases lt_trichotomy m.ordinal n.ordinal with hlt | heq | hgt
  · rw [compare_lt_iff_lt.2 hlt, compare_lt_iff_lt.2 (elapsed_lt hm hn hlt)]
  · rw [compare_eq_iff_eq.2 heq, compare_eq_iff_eq.2 (elapsed_eq hm hn heq)]
  · rw [compare_gt_iff_gt.2 hgt, compare_gt_iff_gt.2 (elapsed_lt hn hm hgt)]

/-- The moment a number of seconds earlier, also where that is another day. -/
theorem minusSeconds_spec (hm : m.IsValid) (ho : offset.natAbs < 86400) :
    (m.minusSeconds offset).IsValid ∧
      (m.minusSeconds offset).elapsed = m.elapsed - offset * 10 ^ 9 := by
  have hs := hm.time.seconds_lt
  have htime : ∀ seconds, seconds < 86400 → (TimeOfDay.ofSeconds seconds m.time.nano).IsValid :=
    fun _ hlt => TimeOfDay.isValid_ofSeconds hlt hm.time.nano
  unfold minusSeconds
  dsimp only
  split
  · refine ⟨⟨Date.isValid_prev hm.date, htime _ (by omega)⟩, ?_⟩
    simp only [elapsed, Date.number_prev hm.date, TimeOfDay.seconds_ofSeconds, TimeOfDay.nano_ofSeconds]
    omega
  · split
    · refine ⟨⟨hm.date, htime _ (by omega)⟩, ?_⟩
      simp only [elapsed, TimeOfDay.seconds_ofSeconds, TimeOfDay.nano_ofSeconds]
      omega
    · refine ⟨⟨Date.isValid_next hm.date, htime _ (by omega)⟩, ?_⟩
      simp only [elapsed, Date.number_next hm.date, TimeOfDay.seconds_ofSeconds,
        TimeOfDay.nano_ofSeconds]
      omega

/-- The first moment of the calendar of values. -/
def first : Moment := ⟨.first, .midnight⟩

/-- The last moment of the calendar of values. -/
def last : Moment := ⟨.last, ⟨23, 59, 59, 999999999⟩⟩

theorem elapsed_first : first.elapsed = Date.first.number * 86400 * 10 ^ 9 := rfl

theorem elapsed_last : last.elapsed = (Date.last.number * 86400 + 86399) * 10 ^ 9 + 999999999 := rfl

/-- The calendar of values has the moments from the first to the last one. -/
theorem inRange_iff (hm : m.IsValid) :
    m.date.inRange ↔ first.elapsed ≤ m.elapsed ∧ m.elapsed ≤ last.elapsed := by
  have hs := hm.time.seconds_lt
  have hnano := hm.time.nano
  rw [Date.inRange_iff hm.date, elapsed_first, elapsed_last, elapsed]
  omega

end Moment

/-! ## Instants -/

namespace Temporal

variable {t u : Temporal}

/-- What a date or time is made of: a moment of the calendar, and an offset of less than a day. -/
structure InCalendar (t : Temporal) : Prop where
  moment : t.moment.IsValid
  range : t.moment.date.inRange
  offset : ∀ z ∈ t.offset, z.natAbs < 86400

theorem InSpace.inCalendar {type : ItemType} (ht : t.InSpace type) : t.InCalendar where
  moment := ⟨ht.date.1, ht.time⟩
  range := ht.date.2
  offset z hz := by
    obtain ⟨minutes, rfl, hminutes⟩ := ht.offset z hz
    omega

theorem InCalendar.natAbs_offset (ht : t.InCalendar) : (t.offset.getD 0).natAbs < 86400 := by
  cases hz : t.offset with
  | none => decide
  | some z => exact ht.offset z hz

/-- The nanoseconds from the day before year zero to a date or time in UTC. -/
def utc (t : Temporal) : Int := t.moment.elapsed - t.offset.getD 0 * 10 ^ 9

/-- The date or time in UTC lies between the first and the last moment of the calendar. -/
def InReach (t : Temporal) : Prop := Moment.first.elapsed ≤ t.utc ∧ t.utc ≤ Moment.last.elapsed

/-- The instant is the moment that the date or time is in UTC. -/
theorem instant_spec (ht : t.InCalendar) : t.instant.IsValid ∧ t.instant.elapsed = t.utc :=
  Moment.minusSeconds_spec ht.moment ht.natAbs_offset

theorem hasInstant_iff (ht : t.InCalendar) : t.hasInstant ↔ t.InReach := by
  obtain ⟨hvalid, helapsed⟩ := instant_spec ht
  rw [hasInstant, Moment.inRange_iff hvalid, helapsed]
  rfl

/-- On the first and on the last day of the calendar, the offset does not lead out of the day at the far
end. -/
structure StaysInside (t : Temporal) : Prop where
  first : t.moment.date = .first → t.offset.getD 0 ≤ t.moment.time.seconds
  last : t.moment.date = .last → t.moment.time.seconds - t.offset.getD 0 < 86400

/-- No other day has moments that an offset takes out of the calendar. -/
theorem inReach_iff (ht : t.InCalendar) : t.InReach ↔ t.StaysInside := by
  obtain ⟨hvalid, htime⟩ := ht.moment
  have hs := htime.seconds_lt
  have hnano := htime.nano
  have hoffset := ht.natAbs_offset
  obtain ⟨hlower, hupper⟩ := (Date.inRange_iff hvalid).1 ht.range
  have hfirst : t.moment.date = .first ↔ t.moment.date.number = Date.first.number :=
    ⟨congrArg _, Date.eq_of_number hvalid (by decide)⟩
  have hlast : t.moment.date = .last ↔ t.moment.date.number = Date.last.number :=
    ⟨congrArg _, Date.eq_of_number hvalid (by decide)⟩
  have hstays : t.StaysInside ↔ (t.moment.date = .first → _) ∧ (t.moment.date = .last → _) :=
    ⟨fun h => ⟨h.first, h.last⟩, fun h => ⟨h.1, h.2⟩⟩
  rw [hstays, hfirst, hlast, InReach, utc, Moment.elapsed_first, Moment.elapsed_last, Moment.elapsed]
  omega

theorem compare_instant (ht : t.InCalendar) (hu : u.InCalendar) :
    Ord.compare t.instant.ordinal u.instant.ordinal = Ord.compare t.utc u.utc := by
  obtain ⟨hvalid, helapsed⟩ := instant_spec ht
  obtain ⟨hvalid', helapsed'⟩ := instant_spec hu
  rw [Moment.compare_ordinal hvalid hvalid', helapsed, helapsed']

end Temporal

end XPath.Time
