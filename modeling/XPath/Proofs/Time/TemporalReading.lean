import XPath.Proofs.Text.Digits
import XPath.Time.Temporal

/-!
# Dates and times as read

What the reader of a date or time type accepts is a moment of the calendar with an offset of whole
minutes, and the parts that the type leaves out have their reference values
(`Temporal.read?_inSpace`).
-/

namespace XPath.Time

open XPath.Text

variable {type : ItemType} {s body : List Char}

/-! ## Value spaces -/

/-- The time exists; there are no leap seconds. -/
structure TimeOfDay.IsValid (t : TimeOfDay) : Prop where
  hour : t.hour < 24
  minute : t.minute < 60
  second : t.second < 60
  nano : t.nano < 10 ^ 9

theorem TimeOfDay.isValid_midnight : TimeOfDay.midnight.IsValid := by
  constructor <;> decide

/-- Whole minutes, up to fourteen hours either way. -/
def IsOffset (seconds : Int) : Prop := ∃ minutes : Int, seconds = 60 * minutes ∧ minutes.natAbs ≤ 840

/-- The parts that a type leaves out have the values of the last day of 1972, the first month or the
first day, or midnight. -/
def HasReferences (type : ItemType) (m : Moment) : Prop :=
  match type with
  | .date => m.time = .midnight
  | .time => m.date = ⟨1972, 12, 31⟩
  | .gYear => m.date.month = 1 ∧ m.date.day = 1 ∧ m.time = .midnight
  | .gYearMonth => m.date.day = 1 ∧ m.time = .midnight
  | .gMonth => m.date.year = 1972 ∧ m.date.day = 1 ∧ m.time = .midnight
  | .gMonthDay => m.date.year = 1972 ∧ m.time = .midnight
  | .gDay => m.date.year = 1972 ∧ m.date.month = 12 ∧ m.time = .midnight
  | _ => True

/-- The dates and times of a type. -/
structure Temporal.InSpace (type : ItemType) (t : Temporal) : Prop where
  date : t.moment.date.isValid ∧ t.moment.date.inRange
  time : t.moment.time.IsValid
  offset : ∀ z ∈ t.offset, IsOffset z
  stamp : type = .dateTimeStamp → t.offset.isSome
  references : HasReferences type t.moment

/-! ## Parts -/

theorem Date.isValid_iff {year : Int} {month day : Nat} :
    (⟨year, month, day⟩ : Date).isValid ↔
      1 ≤ month ∧ month ≤ 12 ∧ 1 ≤ day ∧ day ≤ daysInMonth year month := by
  simp only [Date.isValid, Bool.and_eq_true, decide_eq_true_eq, and_assoc]

theorem ofYmd?_eq_some {year : Int} {month day : Nat} {d : Date}
    (hd : Date.ofYmd? year month day = some d) :
    d = ⟨year, month, day⟩ ∧ d.isValid ∧ d.inRange := by
  obtain ⟨hvalid, hd⟩ := Option.ite_none_right_eq_some.1 hd
  obtain rfl := Option.some.inj hd
  exact ⟨rfl, Bool.and_eq_true_iff.1 hvalid⟩

theorem readDate?_valid {d : Date} (hd : readDate? s = some d) : d.isValid ∧ d.inRange := by
  rw [readDate?] at hd
  split at hd
  · simp only [Option.bind_eq_bind, Option.bind_eq_some_iff] at hd
    obtain ⟨year, -, month, -, day, -, hd⟩ := hd
    exact (ofYmd?_eq_some hd).2
  · cases hd

/-- The nine digits that are taken of a fraction. -/
theorem allDigits_filled {fraction : List Char} (hs : allDigits fraction) :
    allDigits ((fraction ++ List.replicate 9 '0').take 9) := by
  refine allDigits_iff.2 fun c hc => ?_
  rcases List.mem_append.1 (List.mem_of_mem_take hc) with hc | hc
  · exact allDigits_iff.1 hs c hc
  · rw [(List.mem_replicate.1 hc).2]
    rfl

theorem readSeconds?_lt {second nano : Nat} (hs : readSeconds? s = some (second, nano)) :
    nano < 10 ^ 9 := by
  rw [readSeconds?] at hs
  split at hs
  · obtain ⟨n, -, hn⟩ := Option.map_eq_some_iff.1 hs
    cases hn
    decide
  · next whole fraction _ =>
    obtain ⟨hfraction, hs⟩ := Option.ite_none_right_eq_some.1 hs
    obtain ⟨n, -, hn⟩ := Option.map_eq_some_iff.1 hs
    cases hn
    have := digitsValue_lt (allDigits_filled hfraction.2)
    rwa [List.length_take_of_le (by simp)] at this

theorem readTime?_valid {t : TimeOfDay} {endOfDay : Bool} (ht : readTime? s = some (t, endOfDay)) :
    t.IsValid := by
  rw [readTime?] at ht
  split at ht
  · simp only [Option.bind_eq_bind, Option.bind_eq_some_iff, Prod.exists] at ht
    obtain ⟨hour, -, minute, -, second, nano, hseconds, ht⟩ := ht
    split at ht
    · obtain ⟨-, ht⟩ := Option.ite_none_right_eq_some.1 ht
      cases ht
      exact TimeOfDay.isValid_midnight
    · obtain ⟨hlt, ht⟩ := Option.ite_none_right_eq_some.1 ht
      cases ht
      exact ⟨hlt.1, hlt.2.1, hlt.2.2, readSeconds?_lt hseconds⟩
  · cases ht

theorem readOffset?_isOffset {offset : Option Int} (hs : readOffset? s = some (body, offset)) :
    ∀ z ∈ offset, IsOffset z := by
  rw [readOffset?] at hs
  split at hs
  · cases hs
    rintro z ⟨⟩
    exact ⟨0, rfl, by decide⟩
  · split at hs
    · simp only [Option.bind_eq_bind, Option.bind_eq_some_iff, Option.ite_none_left_eq_some] at hs
      obtain ⟨hours, -, minutes, -, hlt, hs⟩ := hs
      cases hs
      rintro z ⟨⟩
      split
      · exact ⟨-(hours * 60 + minutes : Nat), by push_cast; ring, by omega⟩
      · exact ⟨(hours * 60 + minutes : Nat), by push_cast; ring, by omega⟩
    · cases hs
      exact fun z hz => nomatch hz
  · cases hs
    exact fun z hz => nomatch hz

/-! ## Moments -/

/-- The moment is in the calendar and fits the type. -/
structure IsMoment (type : ItemType) (m : Moment) : Prop where
  date : m.date.isValid ∧ m.date.inRange
  time : m.time.IsValid
  references : HasReferences type m

theorem IsMoment.midnight {year : Int} {month day : Nat} {m : Moment}
    (hm : (Date.ofYmd? year month day).map (fun d => ⟨d, .midnight⟩) = some m)
    (hr : HasReferences type ⟨⟨year, month, day⟩, .midnight⟩) : IsMoment type m := by
  obtain ⟨d, hd, rfl⟩ := Option.map_eq_some_iff.1 hm
  obtain ⟨rfl, hvalid⟩ := ofYmd?_eq_some hd
  exact ⟨hvalid, TimeOfDay.isValid_midnight, hr⟩

/-- A date-time is read from a date and a time; the end of a day is the start of the next one. -/
theorem readDateTime?_isMoment {m : Moment} (hr : ∀ m, HasReferences type m)
    (hm : (do
      let (d, t) ← cutAt 'T' body
      let (time, endOfDay) ← readTime? t
      let date ← readDate? d
      if endOfDay then
        if date.next.inRange then some ⟨date.next, time⟩ else none
      else some ⟨date, time⟩) = some m) : IsMoment type m := by
  simp only [Option.bind_eq_bind, Option.bind_eq_some_iff, Prod.exists] at hm
  obtain ⟨_, _, -, time, endOfDay, htime, date, hdate, hm⟩ := hm
  obtain ⟨hvalid, hrange⟩ := readDate?_valid hdate
  cases endOfDay with
  | true =>
    obtain ⟨hnext, hm⟩ := Option.ite_none_right_eq_some.1 hm
    cases hm
    exact ⟨⟨Date.isValid_next hvalid, hnext⟩, readTime?_valid htime, hr _⟩
  | false =>
    cases hm
    exact ⟨⟨hvalid, hrange⟩, readTime?_valid htime, hr _⟩

theorem readMoment?_isMoment {m : Moment} (hm : readMoment? type body = some m) :
    IsMoment type m := by
  unfold readMoment? at hm
  cases type <;> dsimp only at hm <;> try cases hm
  case dateTime | dateTimeStamp => exact readDateTime?_isMoment (fun _ => trivial) hm
  case date =>
    obtain ⟨d, hd, rfl⟩ := Option.map_eq_some_iff.1 hm
    exact ⟨readDate?_valid hd, TimeOfDay.isValid_midnight, rfl⟩
  case time =>
    obtain ⟨⟨t, endOfDay⟩, ht, rfl⟩ := Option.map_eq_some_iff.1 hm
    exact ⟨⟨rfl, rfl⟩, readTime?_valid ht, rfl⟩
  case gYear =>
    obtain ⟨year, -, hm⟩ := Option.bind_eq_some_iff.1 hm
    exact .midnight hm ⟨rfl, rfl, rfl⟩
  case gYearMonth =>
    split at hm
    · obtain ⟨year, -, hm⟩ := Option.bind_eq_some_iff.1 hm
      obtain ⟨month, -, hm⟩ := Option.bind_eq_some_iff.1 hm
      exact .midnight hm ⟨rfl, rfl⟩
    · cases hm
  case gMonth =>
    obtain ⟨_, -, hm⟩ := Option.bind_eq_some_iff.1 hm
    obtain ⟨month, -, hm⟩ := Option.bind_eq_some_iff.1 hm
    exact .midnight hm ⟨rfl, rfl, rfl⟩
  case gMonthDay =>
    obtain ⟨_, -, hm⟩ := Option.bind_eq_some_iff.1 hm
    obtain ⟨⟨_, _⟩, -, hm⟩ := Option.bind_eq_some_iff.1 hm
    obtain ⟨month, -, hm⟩ := Option.bind_eq_some_iff.1 hm
    obtain ⟨day, -, hm⟩ := Option.bind_eq_some_iff.1 hm
    exact .midnight hm ⟨rfl, rfl⟩
  case gDay =>
    obtain ⟨_, -, hm⟩ := Option.bind_eq_some_iff.1 hm
    obtain ⟨day, -, hm⟩ := Option.bind_eq_some_iff.1 hm
    exact .midnight hm ⟨rfl, rfl, rfl⟩

/-- What is read is a date or time of the type. -/
theorem Temporal.read?_inSpace {t : Temporal} (ht : Temporal.read? type s = some t) :
    t.InSpace type := by
  rw [Temporal.read?] at ht
  simp only [Option.bind_eq_bind, Option.bind_eq_some_iff, Prod.exists] at ht
  obtain ⟨body, offset, hoffset, moment, hmoment, ht⟩ := ht
  obtain ⟨hstamp, ht⟩ := Option.ite_none_left_eq_some.1 ht
  cases ht
  have hm := readMoment?_isMoment hmoment
  refine ⟨hm.date, hm.time, readOffset?_isOffset hoffset, fun htype => ?_, hm.references⟩
  exact Option.isSome_iff_ne_none.2 fun hnone => hstamp ⟨htype, hnone⟩

theorem Temporal.parse_eq_ok_iff {type : ItemType} {s : String} {t : Temporal} :
    Temporal.parse type s = .ok t ↔ Temporal.read? type s.toList = some t := by
  rw [Temporal.parse]
  cases Temporal.read? type s.toList <;> simp

/-- A text of a date-time stamp is one of a date-time with the same value. -/
theorem Temporal.read?_dateTime {t : Temporal} (ht : Temporal.read? .dateTimeStamp s = some t) :
    Temporal.read? .dateTime s = some t := by
  rw [Temporal.read?] at ht ⊢
  simp only [Option.bind_eq_bind, Option.bind_eq_some_iff, Prod.exists] at ht ⊢
  obtain ⟨body, offset, hoffset, moment, hmoment, ht⟩ := ht
  exact ⟨body, offset, hoffset, moment, hmoment, (Option.ite_none_left_eq_some.1 ht).2⟩

end XPath.Time
