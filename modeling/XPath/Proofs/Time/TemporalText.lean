import Mathlib.Data.List.Basic
import XPath.Proofs.Text.Pieces
import XPath.Proofs.Time.TemporalReading

/-!
# Texts of dates and times

A date or time of a type is read back from its text (`Temporal.read?_text`). The parts of a text are
told apart by their separators, which no part holds, except that a minus sign may stand in front of
a year; and no text without an offset ends like one that has an offset.
-/

namespace XPath.Time

open XPath.Text

variable {type : ItemType} {s body tail : List Char} {c : Char} {n : Nat}

/-! ## Parts of a date -/

theorem length_two (hn : n < 100) : (two n).length = 2 := length_padded_of_lt hn (by decide)

theorem readDigits?_two (hn : n < 100) : readDigits? 2 (two n) = some n :=
  readDigits?_padded hn (by decide)

theorem allDigits_two (n : Nat) : allDigits (two n) := allDigits_padded 2 n

theorem isDigit_of_mem_two (hc : c ∈ two n) : c.isDigit := allDigits_iff.1 (allDigits_two n) c hc

theorem not_mem_two (hc : c.isDigit = false) : c ∉ two n :=
  not_mem_of_allDigits (allDigits_two n) hc

theorem padded_ne_nil (width n : Nat) : padded width n ≠ [] := by
  have := length_padded width n
  have := length_natDigits_pos n
  exact List.length_pos_iff.1 (by omega)

theorem head_padded (width n : Nat) : (padded width n).head? ≠ some '-' := fun h =>
  not_mem_of_allDigits (allDigits_padded width n) (by decide) (List.mem_of_mem_head? h)

theorem dropSign_padded (width n : Nat) (tail : List Char) :
    dropSign '-' (padded width n ++ tail) = (false, padded width n ++ tail) := by
  obtain ⟨c, rest, hcons⟩ := List.exists_cons_of_ne_nil (padded_ne_nil width n)
  have := head_padded width n
  rw [hcons] at this ⊢
  exact dropSign_of_head this

/-- Every year is read back. -/
theorem readYear?_yearText (year : Int) : readYear? (yearText year) = some year := by
  have hdigits := allDigits_padded 4 year.natAbs
  have hvalue := digitsValue_padded 4 year.natAbs
  have hyear : ¬((padded 4 year.natAbs).length < 4 ∨ !allDigits (padded 4 year.natAbs) ∨
      (4 < (padded 4 year.natAbs).length ∧ (padded 4 year.natAbs).head? = some '0')) := by
    rintro (hlength | hall | ⟨hlength, hhead⟩)
    · rw [length_padded] at hlength
      omega
    · simp [hdigits] at hall
    · by_cases hlt : year.natAbs < 10 ^ 4
      · rw [length_padded_of_lt hlt (by decide)] at hlength
        omega
      · rw [padded_of_le (by omega)] at hhead
        exact head_natDigits (by omega) hhead
  have hsigned : ∀ negative : Bool, dropSign '-' (yearText year) =
      (negative, padded 4 year.natAbs) →
      (if negative then -(year.natAbs : Int) else year.natAbs) = year →
      readYear? (yearText year) = some year := by
    intro negative hdrop hsign
    rw [readYear?, hdrop]
    simp only [if_neg hyear, hvalue, hsign]
  by_cases hneg : year < 0
  · refine hsigned true ?_ (by rw [if_pos rfl]; omega)
    rw [yearText, if_pos hneg]
    exact dropSign_self ..
  · refine hsigned false ?_ (by rw [if_neg (by decide)]; omega)
    rw [yearText, if_neg hneg]
    simpa using dropSign_padded 4 year.natAbs []

theorem mem_yearText {year : Int} (hc : c ∈ yearText year) : c.isDigit ∨ c = '-' := by
  have digit : c ∈ padded 4 year.natAbs → c.isDigit := allDigits_iff.1 (allDigits_padded ..) c
  rw [yearText] at hc
  split at hc
  · rcases List.mem_cons.1 hc with rfl | hc
    · exact .inr rfl
    · exact .inl (digit hc)
  · exact .inl (digit hc)

/-- A minus sign in front of a year is not taken for a separator. -/
theorem datePieces_yearText (year : Int) (tail : List Char) :
    datePieces (yearText year ++ '-' :: tail) = yearText year :: splitAt '-' tail := by
  have hsplit : splitAt '-' (padded 4 year.natAbs ++ '-' :: tail) = _ := splitAt_append
    (not_mem_of_allDigits (allDigits_padded 4 year.natAbs) (show ('-').isDigit = false from rfl))
  by_cases hneg : year < 0
  · rw [datePieces, yearText, if_pos hneg, List.cons_append, dropSign_self]
    simp only [hsplit]
  · rw [datePieces, yearText, if_neg hneg, dropSign_padded]
    exact hsplit

theorem ofYmd?_self {d : Date} (hd : d.isValid ∧ d.inRange) :
    Date.ofYmd? d.year d.month d.day = some d :=
  if_pos (Bool.and_eq_true_iff.2 hd)

theorem month_day_lt {d : Date} (hd : d.isValid) : d.month < 100 ∧ d.day < 100 := by
  have hdays : daysInMonth d.year d.month ≤ 31 := by
    unfold daysInMonth
    split
    · split <;> decide
    all_goals decide
  simp only [Date.isValid, Bool.and_eq_true, decide_eq_true_eq] at hd
  omega

theorem readDate?_text {d : Date} (hd : d.isValid ∧ d.inRange) : readDate? d.text = some d := by
  obtain ⟨hmonth, hday⟩ := month_day_lt hd.1
  have hpieces : datePieces d.text = [yearText d.year, two d.month, two d.day] := by
    rw [Date.text, List.append_assoc, List.cons_append, datePieces_yearText,
      splitAt_append (not_mem_two rfl), splitAt_of_not_mem (not_mem_two rfl)]
  rw [readDate?, hpieces]
  simp only [readYear?_yearText, readDigits?_two hmonth, readDigits?_two hday, Option.bind_eq_bind,
    Option.bind_some, ofYmd?_self hd]

theorem mem_dateText {d : Date} (hc : c ∈ d.text) : c.isDigit ∨ c = '-' := by
  simp only [Date.text, List.mem_append, List.mem_cons] at hc
  rcases hc with (hc | rfl | hc) | rfl | hc
  · exact mem_yearText hc
  · exact .inr rfl
  · exact .inl (isDigit_of_mem_two hc)
  · exact .inr rfl
  · exact .inl (isDigit_of_mem_two hc)

/-! ## Times -/

/-- The digits of a fraction without the zeros at their end. -/
def fractionText (nano : Nat) : List Char := ((padded 9 nano).reverse.dropWhile (· == '0')).reverse

theorem exists_zeros (s : List Char) :
    ∃ k, (s.reverse.dropWhile (· == '0')).reverse ++ List.replicate k '0' = s := by
  refine ⟨(s.reverse.takeWhile (· == '0')).length, ?_⟩
  have hzeros : s.reverse.takeWhile (· == '0') =
      List.replicate (s.reverse.takeWhile (· == '0')).length '0' :=
    List.eq_replicate_iff.2 ⟨rfl, fun c hc => by simpa using List.all_eq_true.1 List.all_takeWhile c hc⟩
  have hsplit := List.takeWhile_append_dropWhile (p := (· == '0')) (l := s.reverse)
  rw [← List.reverse_inj, List.reverse_append, List.reverse_replicate, List.reverse_reverse,
    ← hzeros, hsplit]

theorem readSeconds?_fraction {second nano : Nat} (hs : second < 100) (hn : nano < 10 ^ 9)
    (hpos : nano ≠ 0) :
    readSeconds? (two second ++ '.' :: fractionText nano) = some (second, nano) := by
  obtain ⟨k, hk⟩ := exists_zeros (padded 9 nano)
  have hk : fractionText nano ++ List.replicate k '0' = padded 9 nano := hk
  have hlength : (fractionText nano).length + k = 9 := by
    have := congrArg List.length hk
    rw [length_padded_of_lt hn (by decide)] at this
    simpa using this
  have hdigits : allDigits (fractionText nano) :=
    (allDigits_append.1 (hk ▸ allDigits_padded 9 nano)).1
  have hne : fractionText nano ≠ [] := by
    intro hnil
    have hvalue := digitsValue_padded 9 nano
    rw [← hk, hnil, List.nil_append, ← List.append_nil (List.replicate k '0'),
      digitsValue_zeros] at hvalue
    exact hpos hvalue.symm
  have htake : (fractionText nano ++ List.replicate 9 '0').take 9 = padded 9 nano := by
    rw [← hk, List.take_append, List.take_of_length_le (by omega), List.take_replicate]
    congr 2
    omega
  rw [readSeconds?, cutAt_append (not_mem_two rfl)]
  simp only [hne, hdigits, readDigits?_two hs, htake, digitsValue_padded, ne_eq,
    not_false_eq_true, and_self, if_true, Option.map_some]

theorem readSeconds?_two {second : Nat} (hs : second < 100) :
    readSeconds? (two second) = some (second, 0) := by
  rw [readSeconds?, cutAt_eq_none_iff.2 (not_mem_two rfl)]
  simp only [readDigits?_two hs, Option.map_some]

/-- The seconds of a time, with their fraction if there is one. -/
def TimeOfDay.secondsText (t : TimeOfDay) : List Char :=
  if t.nano = 0 then two t.second else two t.second ++ '.' :: fractionText t.nano

theorem TimeOfDay.text_eq (t : TimeOfDay) :
    t.text = two t.hour ++ ':' :: (two t.minute ++ ':' :: t.secondsText) := by
  rw [TimeOfDay.text, secondsText]
  split
  · simp
  · simp [fractionText]

theorem mem_secondsText {t : TimeOfDay} (hc : c ∈ t.secondsText) : c.isDigit ∨ c = '.' := by
  rw [TimeOfDay.secondsText] at hc
  split at hc
  · exact .inl (isDigit_of_mem_two hc)
  · rcases List.mem_append.1 hc with hc | hc
    · exact .inl (isDigit_of_mem_two hc)
    · rcases List.mem_cons.1 hc with rfl | hc
      · exact .inr rfl
      · have hmem := (List.dropWhile_sublist _).mem (List.mem_reverse.1 hc)
        exact .inl (allDigits_iff.1 (allDigits_padded 9 t.nano) c (List.mem_reverse.1 hmem))

theorem readTime?_text {t : TimeOfDay} (ht : t.IsValid) : readTime? t.text = some (t, false) := by
  obtain ⟨hhour, hminute, hsecond, hnano⟩ := ht
  have hcolon : ':' ∉ t.secondsText := fun h => by
    rcases mem_secondsText h with h | h <;> exact absurd h (by decide)
  have hpieces : splitAt ':' t.text = [two t.hour, two t.minute, t.secondsText] := by
    rw [TimeOfDay.text_eq, splitAt_append (not_mem_two rfl), splitAt_append (not_mem_two rfl),
      splitAt_of_not_mem hcolon]
  have hseconds : readSeconds? t.secondsText = some (t.second, t.nano) := by
    rw [TimeOfDay.secondsText]
    split
    · next h => rw [readSeconds?_two (by omega), h]
    · next h => exact readSeconds?_fraction (by omega) hnano h
  have hday : ¬t.hour = 24 := by omega
  rw [readTime?, hpieces]
  simp only [readDigits?_two (show t.hour < 100 by omega),
    readDigits?_two (show t.minute < 100 by omega), hseconds, Option.bind_eq_bind, Option.bind_some,
    if_neg hday, if_pos (⟨hhour, hminute, hsecond⟩ : t.hour < 24 ∧ t.minute < 60 ∧ t.second < 60)]

theorem mem_timeText {t : TimeOfDay} (hc : c ∈ t.text) : c.isDigit ∨ c = ':' ∨ c = '.' := by
  simp only [TimeOfDay.text_eq, List.mem_append, List.mem_cons] at hc
  rcases hc with hc | rfl | hc | rfl | hc
  · exact .inl (isDigit_of_mem_two hc)
  · exact .inr (.inl rfl)
  · exact .inl (isDigit_of_mem_two hc)
  · exact .inr (.inl rfl)
  · exact (mem_secondsText hc).imp_right .inr

/-! ## Offsets -/

/-- A text has no offset if it does not end in `Z`, and either its third character from the end is no
colon, as in an offset, or the sixth is one, as in a time of day. -/
structure Bare (s : List Char) : Prop where
  last : s.reverse[0]? ≠ some 'Z'
  colon : s.reverse[2]? ≠ some ':' ∨ s.reverse[5]? = some ':'

theorem Bare.readOffset? (hs : Bare s) : readOffset? s = some (s, none) := by
  unfold Time.readOffset?
  split
  case h_1 hrev =>
    have := hs.last
    simp [hrev] at this
  case h_2 sign body hrev =>
    have := hs.colon
    rw [hrev] at this
    simp only [List.getElem?_cons_succ, List.getElem?_cons_zero, ne_eq, not_true_eq_false,
      false_or, Option.some.injEq] at this
    rw [if_neg (by rw [this]; decide)]
  case h_3 => rfl

/-- The last three characters tell that there is no offset. -/
theorem Bare.of_tail {front : List Char} (hl : 3 ≤ tail.length)
    (ht : ∀ c ∈ tail, c ≠ ':' ∧ c ≠ 'Z') : Bare (front ++ tail) := by
  have hget : ∀ i < 3, ∀ c, (front ++ tail).reverse[i]? = some c → c ∈ tail := by
    intro i hi c hc
    rw [List.reverse_append, List.getElem?_append_left (by simp; omega)] at hc
    exact List.mem_reverse.1 (List.mem_of_getElem? hc)
  exact ⟨fun h => (ht _ (hget 0 (by decide) _ h)).2 rfl,
    .inl fun h => (ht _ (hget 2 (by decide) _ h)).1 rfl⟩

theorem isDigit_ne (hc : c.isDigit) : c ≠ ':' ∧ c ≠ 'Z' :=
  ⟨fun h => absurd hc (h ▸ by decide), fun h => absurd hc (h ▸ by decide)⟩

theorem Bare.of_two (front : List Char) (hc : c ≠ ':' ∧ c ≠ 'Z') (hn : n < 100) :
    Bare (front ++ c :: two n) := by
  refine .of_tail (by rw [List.length_cons, length_two hn]) fun c' hc' => ?_
  rcases List.mem_cons.1 hc' with rfl | hc'
  · exact hc
  · exact isDigit_ne (isDigit_of_mem_two hc')

theorem Bare.of_year (year : Int) : Bare (yearText year) := by
  have hlength : 4 ≤ (padded 4 year.natAbs).length := by
    rw [length_padded]
    omega
  rw [← List.nil_append (yearText year)]
  refine .of_tail ?_ fun c hc => ?_
  · rw [yearText]
    split
    · rw [List.length_cons]
      omega
    · omega
  · rcases mem_yearText hc with hc | rfl
    · exact isDigit_ne hc
    · decide

theorem Bare.of_time {t : TimeOfDay} (ht : t.IsValid) (front : List Char) :
    Bare (front ++ t.text) := by
  have hsecond := length_two (show t.second < 100 by have := ht.second; omega)
  by_cases hnano : t.nano = 0
  · -- The third character from the end is a colon here, and so is the sixth one.
    obtain ⟨a, b, htwo⟩ := List.length_eq_two.1 hsecond
    obtain ⟨c, d, htwo'⟩ := List.length_eq_two.1 (length_two (show t.minute < 100 by
      have := ht.minute; omega))
    have hb : b.isDigit := isDigit_of_mem_two (show b ∈ two t.second by simp [htwo])
    have htext : (front ++ t.text).reverse =
        b :: a :: ':' :: d :: c :: ':' :: (front ++ two t.hour).reverse := by
      rw [TimeOfDay.text_eq, TimeOfDay.secondsText, if_pos hnano, htwo, htwo']
      simp
    constructor
    · rw [htext, List.getElem?_cons_zero]
      exact fun h => (isDigit_ne hb).2 (Option.some.inj h)
    · right
      rw [htext]
      rfl
  · have htext : front ++ t.text = (front ++ two t.hour ++ ':' :: (two t.minute ++ [':'])) ++
        (two t.second ++ '.' :: fractionText t.nano) := by
      rw [TimeOfDay.text_eq, TimeOfDay.secondsText, if_neg hnano]
      simp
    rw [htext]
    refine .of_tail ?_ fun c hc => ?_
    · rw [List.length_append, hsecond, List.length_cons]
      omega
    · have hmem : c ∈ t.secondsText := by
        rw [TimeOfDay.secondsText, if_neg hnano]
        exact hc
      rcases mem_secondsText hmem with hc | rfl
      · exact isDigit_ne hc
      · decide

/-- A bare text and the offset that follows it are told apart. -/
theorem readOffset?_text {offset : Option Int} (hs : Bare s) (ho : ∀ z ∈ offset, IsOffset z) :
    readOffset? (s ++ offsetText offset) = some (s, offset) := by
  cases offset with
  | none =>
    rw [offsetText, List.append_nil]
    exact hs.readOffset?
  | some z =>
    obtain ⟨minutes, hz, hle⟩ := ho z rfl
    by_cases hzero : z = 0
    · rw [offsetText, if_pos hzero, readOffset?, List.reverse_append]
      simp [hzero]
    · have hhours : z.natAbs / 3600 < 100 := by omega
      have hminutes : z.natAbs % 3600 / 60 < 100 := by omega
      obtain ⟨a, b, hab⟩ := List.length_eq_two.1 (length_two hhours)
      obtain ⟨c, d, hcd⟩ := List.length_eq_two.1 (length_two hminutes)
      have hd : d.isDigit := isDigit_of_mem_two (show d ∈ two _ by rw [hcd]; simp)
      have hreadHours := readDigits?_two hhours
      have hreadMinutes := readDigits?_two hminutes
      rw [hab] at hreadHours
      rw [hcd] at hreadMinutes
      have htext : (s ++ offsetText (some z)).reverse =
          d :: c :: ':' :: b :: a :: (if z < 0 then '-' else '+') :: s.reverse := by
        rw [offsetText, if_neg hzero]
        simp [hab, hcd]
      have hlimit : ¬(14 < z.natAbs / 3600 ∨ 59 < z.natAbs % 3600 / 60 ∨
          (z.natAbs / 3600 = 14 ∧ 0 < z.natAbs % 3600 / 60)) := by omega
      have hsign : (if z < 0 then '-' else '+') = '+' ∨ (if z < 0 then '-' else '+') = '-' := by
        split
        · exact .inr rfl
        · exact .inl rfl
      have htotal : ((z.natAbs / 3600 : Nat) : Int) * 3600 +
          ((z.natAbs % 3600 / 60 : Nat) : Int) * 60 = z.natAbs := by omega
      unfold readOffset?
      rw [htext]
      split
      case h_1 hrev => exact absurd (List.cons.inj hrev).1 (isDigit_ne hd).2
      case h_2 hrev =>
        cases hrev
        rw [if_pos hsign]
        simp only [hreadHours, hreadMinutes, Option.bind_eq_bind, Option.bind_some, if_neg hlimit,
          htotal, List.reverse_reverse]
        split
        · rw [if_pos rfl, show -(z.natAbs : Int) = z by omega]
        · rw [if_neg (by decide), show (z.natAbs : Int) = z by omega]
      case h_3 hother => exact absurd rfl (hother _ _ _ _ _ _)

/-! ## Moments -/

/-- The nine types of dates and times. -/
def temporalTypes : List ItemType :=
  [.dateTime, .dateTimeStamp, .date, .time, .gYear, .gYearMonth, .gMonth, .gMonthDay, .gDay]

/-- Only dates and times are read as moments. -/
theorem mem_temporalTypes {m : Moment} (hm : readMoment? type body = some m) :
    type ∈ temporalTypes := by
  unfold readMoment? at hm
  cases type <;> first | decide | cases hm

/-- The text of a moment in a type, without an offset. -/
def Moment.textOf (type : ItemType) (m : Moment) : List Char :=
  match type with
  | .date => m.date.text
  | .time => m.time.text
  | .gYear => yearText m.date.year
  | .gYearMonth => yearText m.date.year ++ '-' :: two m.date.month
  | .gMonth => '-' :: '-' :: two m.date.month
  | .gMonthDay => '-' :: '-' :: two m.date.month ++ '-' :: two m.date.day
  | .gDay => '-' :: '-' :: '-' :: two m.date.day
  | _ => m.text

theorem Temporal.text_eq (type : ItemType) (t : Temporal) :
    t.text type = t.moment.textOf type ++ offsetText t.offset := by
  cases type <;> rfl

theorem bare_textOf {m : Moment} (htype : type ∈ temporalTypes) (hm : IsMoment type m) :
    Bare (m.textOf type) := by
  obtain ⟨hmonth, hday⟩ := month_day_lt hm.date.1
  have hdate : Bare m.date.text := .of_two _ (by decide) hday
  have htime : Bare m.text := by
    have := Bare.of_time hm.time (m.date.text ++ ['T'])
    rwa [List.append_assoc] at this
  simp only [temporalTypes, List.mem_cons, List.not_mem_nil, or_false] at htype
  rcases htype with rfl | rfl | rfl | rfl | rfl | rfl | rfl | rfl | rfl
  · exact htime
  · exact htime
  · exact hdate
  · exact .of_time hm.time []
  · exact .of_year _
  · exact .of_two _ (by decide) hmonth
  · exact .of_two ['-'] (by decide) hmonth
  · exact .of_two _ (by decide) hday
  · exact .of_two ['-', '-'] (by decide) hday

theorem cutAt_momentText (m : Moment) : cutAt 'T' m.text = some (m.date.text, m.time.text) := by
  refine cutAt_append fun h => ?_
  rcases mem_dateText h with h | h <;> exact absurd h (by decide)

/-- A moment of a type is read back from its text. -/
theorem readMoment?_textOf {m : Moment} (htype : type ∈ temporalTypes) (hm : IsMoment type m) :
    readMoment? type (m.textOf type) = some m := by
  obtain ⟨hmonth, hday⟩ := month_day_lt hm.date.1
  have hdate := hm.date
  have htime := readTime?_text hm.time
  have hreferences := hm.references
  have hself := ofYmd?_self hdate
  obtain ⟨⟨year, month, day⟩, time⟩ := m
  simp only [temporalTypes, List.mem_cons, List.not_mem_nil, or_false] at htype
  rcases htype with rfl | rfl | rfl | rfl | rfl | rfl | rfl | rfl | rfl
  case inl | inr.inl =>
    simp only [readMoment?, Moment.textOf, cutAt_momentText, htime, readDate?_text hdate,
      Option.bind_eq_bind, Option.bind_some]
    rfl
  case inr.inr.inl =>
    obtain rfl : time = .midnight := hreferences
    simp only [readMoment?, Moment.textOf, readDate?_text hdate, Option.map_some]
  case inr.inr.inr.inl =>
    obtain ⟨rfl, rfl, rfl⟩ := Date.mk.inj hreferences
    simp only [readMoment?, Moment.textOf, htime, Option.map_some]
    rfl
  case inr.inr.inr.inr.inl =>
    obtain ⟨rfl, rfl, rfl⟩ := hreferences
    simp only [readMoment?, Moment.textOf, readYear?_yearText, Option.bind_eq_bind,
      Option.bind_some, hself, Option.map_some]
  case inr.inr.inr.inr.inr.inl =>
    obtain ⟨rfl, rfl⟩ := hreferences
    have hpieces : datePieces (yearText year ++ '-' :: two month) = [yearText year, two month] := by
      rw [datePieces_yearText, splitAt_of_not_mem (not_mem_two rfl)]
    simp only [readMoment?, Moment.textOf, hpieces, readYear?_yearText, readDigits?_two hmonth,
      Option.bind_eq_bind, Option.bind_some, hself, Option.map_some]
  case inr.inr.inr.inr.inr.inr.inl =>
    obtain ⟨rfl, rfl, rfl⟩ := hreferences
    simp only [readMoment?, Moment.textOf, dropHyphens?, readDigits?_two hmonth,
      Option.bind_eq_bind, Option.bind_some, referenceYear, hself, Option.map_some]
  case inr.inr.inr.inr.inr.inr.inr.inl =>
    obtain ⟨rfl, rfl⟩ := hreferences
    have hcut : cutAt '-' (two month ++ '-' :: two day) = some (two month, two day) :=
      cutAt_append (not_mem_two rfl)
    simp only [readMoment?, Moment.textOf, dropHyphens?, List.cons_append, hcut,
      readDigits?_two hmonth, readDigits?_two hday, Option.bind_eq_bind, Option.bind_some,
      referenceYear, hself, Option.map_some]
  case inr.inr.inr.inr.inr.inr.inr.inr =>
    obtain ⟨rfl, rfl, rfl⟩ := hreferences
    simp only [readMoment?, Moment.textOf, dropHyphens?, readDigits?_two hday,
      Option.bind_eq_bind, Option.bind_some, referenceYear, hself, Option.map_some]

/-! ## Whole texts -/

theorem mem_textOf {m : Moment} (hc : c ∈ m.textOf type) :
    c.isDigit ∨ c ∈ ['-', ':', '.', 'T'] := by
  have digit : ∀ {n}, c ∈ two n → c.isDigit := isDigit_of_mem_two
  have date : c ∈ m.date.text → c.isDigit ∨ c ∈ ['-', ':', '.', 'T'] := fun hc =>
    (mem_dateText hc).imp_right fun h => by simp [h]
  have time : c ∈ m.time.text → c.isDigit ∨ c ∈ ['-', ':', '.', 'T'] := fun hc =>
    (mem_timeText hc).imp_right fun h => by rcases h with h | h <;> simp [h]
  have year : c ∈ yearText m.date.year → c.isDigit ∨ c ∈ ['-', ':', '.', 'T'] := fun hc =>
    (mem_yearText hc).imp_right fun h => by simp [h]
  unfold Moment.textOf at hc
  split at hc
  case h_1 => exact date hc
  case h_2 => exact time hc
  case h_3 => exact year hc
  case h_8 =>
    rcases List.mem_append.1 hc with hc | hc
    · exact date hc
    · rcases List.mem_cons.1 hc with rfl | hc
      · simp
      · exact time hc
  all_goals
    simp only [List.mem_append, List.mem_cons] at hc
    grind

theorem mem_offsetText {offset : Option Int} (hc : c ∈ offsetText offset) :
    c.isDigit ∨ c ∈ ['-', '+', ':', 'Z'] := by
  cases offset with
  | none => cases hc
  | some z =>
    rw [offsetText] at hc
    split at hc
    · simp [List.mem_singleton.1 hc]
    · simp only [List.mem_append, List.mem_cons] at hc
      rcases hc with (hc | hc) | rfl | hc
      · right
        rw [hc]
        split <;> simp
      · exact .inl (isDigit_of_mem_two hc)
      · simp
      · exact .inl (isDigit_of_mem_two hc)

theorem not_isBlank_of_mem_text {t : Temporal} (hc : c ∈ t.text type) : ¬isBlank c := by
  have hmarks : ∀ c ∈ ['-', ':', '.', 'T', '+', 'Z'], ¬isBlank c := by simp [isBlank]
  rw [Temporal.text_eq] at hc
  rcases List.mem_append.1 hc with hc | hc
  · rcases mem_textOf hc with hc | hc
    · exact not_isBlank_of_isDigit hc
    · exact hmarks c (by grind)
  · rcases mem_offsetText hc with hc | hc
    · exact not_isBlank_of_isDigit hc
    · exact hmarks c (by grind)

/-- A date or time of a type is read back from its text. -/
theorem Temporal.read?_text {t : Temporal} (htype : type ∈ temporalTypes) (ht : t.InSpace type) :
    Temporal.read? type (t.text type) = some t := by
  have hm : IsMoment type t.moment := ⟨ht.date, ht.time, ht.references⟩
  rw [Temporal.read?, trim_of_not_blank fun c hc => not_isBlank_of_mem_text hc, text_eq,
    readOffset?_text (bare_textOf htype hm) ht.offset]
  simp only [Option.bind_eq_bind, Option.bind_some, readMoment?_textOf htype hm]
  refine if_neg fun hstamp => ?_
  have := ht.stamp hstamp.1
  rw [hstamp.2] at this
  cases this

/-- Every lexical form of a date or time may be replaced by the canonical one. -/
theorem Temporal.read?_canonical {t : Temporal} (ht : Temporal.read? type s = some t) :
    Temporal.read? type (t.text type) = some t := by
  have hspace := Temporal.read?_inSpace ht
  rw [Temporal.read?] at ht
  simp only [Option.bind_eq_bind, Option.bind_eq_some_iff, Prod.exists] at ht
  obtain ⟨body, offset, -, moment, hmoment, -⟩ := ht
  exact Temporal.read?_text (mem_temporalTypes hmoment) hspace

end XPath.Time
