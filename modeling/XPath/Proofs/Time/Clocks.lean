import XPath.Proofs.Time.TemporalText

/-!
# Times as written

A time is written as hours, minutes and seconds of two digits each, with a fraction of any length behind
a point (`Clock`), and an offset may follow (`OffsetText`). The reader takes such a text apart in one way
only. It accepts the times of a day, and its end as `24:00:00`, with the fraction cut after nine digits
(`Temporal.parse_clock`). The cut comes first: a fraction at the end of the day that begins with nine
zeros is taken for none, whatever follows (`Temporal.parse_past_midnight`).
-/

namespace XPath.Time

open XPath.Text

variable {s body tail : List Char} {offset : Option Int}

/-! ## Clocks -/

/-- A time as a text states it; without a point there are no digits of a fraction. -/
structure Clock where
  hour : Nat
  minute : Nat
  second : Nat
  fraction : List Char

namespace Clock

def fractionText (c : Clock) : List Char := if c.fraction = [] then [] else '.' :: c.fraction

def text (c : Clock) : List Char :=
  two c.hour ++ ':' :: (two c.minute ++ ':' :: (two c.second ++ c.fractionText))

/-- The fraction in nanoseconds; what is less than one is left out. -/
def nanos (c : Clock) : Nat := digitsValue c.fraction * 10 ^ 9 / 10 ^ c.fraction.length

/-- The clock shows a time of a day, or its end. -/
structure IsTime (c : Clock) : Prop where
  digits : allDigits c.fraction
  range : (c.hour ≤ 23 ∧ c.minute ≤ 59 ∧ c.second ≤ 59) ∨
    (c.hour = 24 ∧ c.minute = 0 ∧ c.second = 0 ∧ ∀ d ∈ c.fraction, d = '0')

/-- The time that the clock shows; the end of a day is midnight. -/
def time (c : Clock) : TimeOfDay :=
  if c.hour = 24 then .midnight else ⟨c.hour, c.minute, c.second, c.nanos⟩

variable {c : Clock}

/-- The reader fills a fraction with zeros and takes nine digits of it. -/
theorem digitsValue_take (hc : allDigits c.fraction) :
    digitsValue ((c.fraction ++ List.replicate 9 '0').take 9) = c.nanos := by
  rw [nanos]
  generalize c.fraction = f at hc
  rcases Nat.le_total f.length 9 with hle | hle
  · have htake : (f ++ List.replicate 9 '0').take 9 = f ++ List.replicate (9 - f.length) '0' := by
      rw [List.take_append, List.take_of_length_le hle, List.take_replicate, Nat.min_eq_left (by omega)]
    have hpow : 10 ^ 9 = 10 ^ (9 - f.length) * 10 ^ f.length := by
      rw [← Nat.pow_add, Nat.sub_add_cancel hle]
    rw [htake, digitsValue_append, digitsValue_replicate, List.length_replicate, Nat.add_zero, hpow,
      ← Nat.mul_assoc, Nat.mul_div_cancel _ (Nat.pow_pos (by decide))]
  · -- The digits behind the ninth one are less than a unit of it.
    have htake : (f ++ List.replicate 9 '0').take 9 = f.take 9 := List.take_append_of_le_length hle
    have hsplit : digitsValue f = digitsValue (f.take 9) * 10 ^ (f.length - 9) + digitsValue (f.drop 9) := by
      rw [← List.length_drop, ← digitsValue_append, List.take_append_drop]
    have hlt : digitsValue (f.drop 9) < 10 ^ (f.length - 9) := by
      rw [← List.length_drop]
      exact digitsValue_lt (allDigits_iff.2 fun d hd => allDigits_iff.1 hc d (List.mem_of_mem_drop hd))
    have hpow : 10 ^ f.length = 10 ^ (f.length - 9) * 10 ^ 9 := by
      rw [← Nat.pow_add, Nat.sub_add_cancel hle]
    rw [htake, hsplit, hpow, Nat.mul_div_mul_right _ _ (by decide), Nat.add_comm,
      Nat.add_mul_div_right _ _ (Nat.pow_pos (by decide)), Nat.div_eq_of_lt hlt, Nat.zero_add]

theorem nanos_eq_zero_iff (hc : allDigits c.fraction) :
    c.nanos = 0 ↔ ∀ d ∈ c.fraction.take 9, d = '0' := by
  rw [← digitsValue_take hc, digitsValue_eq_zero_iff (allDigits_filled hc), List.take_append]
  constructor
  · exact fun h d hd => h d (List.mem_append_left _ hd)
  · intro h d hd
    rcases List.mem_append.1 hd with hd | hd
    · exact h d hd
    · exact (List.mem_replicate.1 (List.mem_of_mem_take hd)).2

/-- The seconds of a clock with their fraction. -/
theorem mem_seconds {d : Char} (hc : allDigits c.fraction) (hd : d ∈ two c.second ++ c.fractionText) :
    d.isDigit ∨ d = '.' := by
  rw [fractionText] at hd
  rcases List.mem_append.1 hd with hd | hd
  · exact .inl (isDigit_of_mem_two hd)
  · split at hd
    · cases hd
    · rcases List.mem_cons.1 hd with rfl | hd
      · exact .inr rfl
      · exact .inl (allDigits_iff.1 hc d hd)

end Clock

/-! ## Reading a clock -/

theorem readDigits?_two_iff {n : Nat} : readDigits? 2 s = some n ↔ n < 100 ∧ s = two n := by
  constructor
  · exact fun hs => eq_padded_of_readDigits? hs (by decide)
  · rintro ⟨hn, rfl⟩
    exact readDigits?_two hn

/-- The seconds of a clock are read as a number and nanoseconds. -/
theorem readSeconds?_iff {second nano : Nat} :
    readSeconds? s = some (second, nano) ↔
      second < 100 ∧ ∃ c : Clock, allDigits c.fraction ∧ c.second = second ∧ c.nanos = nano ∧
        s = two second ++ c.fractionText := by
  constructor
  · intro hs
    rw [readSeconds?] at hs
    split at hs
    · obtain ⟨n, hn, hs⟩ := Option.map_eq_some_iff.1 hs
      obtain ⟨rfl, rfl⟩ := Prod.mk.inj hs
      obtain ⟨hlt, rfl⟩ := readDigits?_two_iff.1 hn
      exact ⟨hlt, ⟨0, 0, n, []⟩, rfl, rfl, by simp [Clock.nanos, digitsValue],
        (List.append_nil _).symm⟩
    · next whole fraction hcut =>
      obtain ⟨⟨hne, hdigits⟩, hs⟩ := Option.ite_none_right_eq_some.1 hs
      obtain ⟨n, hn, hs⟩ := Option.map_eq_some_iff.1 hs
      obtain ⟨rfl, rfl⟩ := Prod.mk.inj hs
      obtain ⟨hlt, rfl⟩ := readDigits?_two_iff.1 hn
      refine ⟨hlt, ⟨0, 0, n, fraction⟩, hdigits, rfl, (Clock.digitsValue_take hdigits).symm, ?_⟩
      rw [(cutAt_eq_some hcut).1, Clock.fractionText, if_neg hne]
  · rintro ⟨hlt, c, hdigits, -, rfl, rfl⟩
    rw [readSeconds?, Clock.fractionText]
    by_cases hne : c.fraction = []
    · rw [if_pos hne, List.append_nil, cutAt_eq_none_iff.2 (not_mem_two rfl), readDigits?_two hlt,
        Clock.nanos, hne]
      rfl
    · rw [if_neg hne, cutAt_append (not_mem_two rfl), ← Clock.digitsValue_take hdigits]
      simp only [if_pos (And.intro hne hdigits), readDigits?_two hlt, Option.map_some]

/-- What the reader takes a clock for: at the end of a day it asks for whole nanoseconds only. -/
inductive Clock.Reads (c : Clock) : TimeOfDay → Bool → Prop
  | within (h : c.hour ≤ 23 ∧ c.minute ≤ 59 ∧ c.second ≤ 59) :
      c.Reads ⟨c.hour, c.minute, c.second, c.nanos⟩ false
  | atEnd (h : c.hour = 24 ∧ c.minute = 0 ∧ c.second = 0) (hn : c.nanos = 0) : c.Reads .midnight true

theorem readTime?_iff {t : TimeOfDay} {endOfDay : Bool} :
    readTime? s = some (t, endOfDay) ↔
      ∃ c : Clock, s = c.text ∧ allDigits c.fraction ∧ c.Reads t endOfDay := by
  constructor
  · intro hs
    rw [readTime?] at hs
    split at hs
    · next h m sec hpieces =>
      have htext := joinWith_splitAt ':' s
      rw [hpieces] at htext
      simp only [Option.bind_eq_bind, Option.bind_eq_some_iff, Prod.exists] at hs
      obtain ⟨hour, hhour, minute, hminute, second, nano, hseconds, hs⟩ := hs
      obtain ⟨-, rfl⟩ := readDigits?_two_iff.1 hhour
      obtain ⟨-, rfl⟩ := readDigits?_two_iff.1 hminute
      obtain ⟨-, c, hdigits, -, rfl, rfl⟩ := readSeconds?_iff.1 hseconds
      refine ⟨⟨hour, minute, second, c.fraction⟩, htext.symm, hdigits, ?_⟩
      split at hs
      · next hday =>
        obtain ⟨⟨hm, hsec, hnano⟩, hs⟩ := Option.ite_none_right_eq_some.1 hs
        cases hs
        exact .atEnd ⟨hday, hm, hsec⟩ hnano
      · obtain ⟨hlt, hs⟩ := Option.ite_none_right_eq_some.1 hs
        cases hs
        exact .within (c := ⟨hour, minute, second, c.fraction⟩) (by simp only; omega)
    · cases hs
  · rintro ⟨c, rfl, hdigits, hr⟩
    have hlt : c.hour < 100 ∧ c.minute < 100 ∧ c.second < 100 := by
      cases hr with
      | within h => omega
      | atEnd h => omega
    have hcolon : ':' ∉ two c.second ++ c.fractionText := fun h => by
      rcases Clock.mem_seconds hdigits h with h | h <;> exact absurd h (by decide)
    have hpieces : splitAt ':' c.text = [two c.hour, two c.minute, two c.second ++ c.fractionText] := by
      rw [Clock.text, splitAt_append (not_mem_two rfl), splitAt_append (not_mem_two rfl),
        splitAt_of_not_mem hcolon]
    have hseconds := readSeconds?_iff.2 ⟨hlt.2.2, c, hdigits, rfl, rfl, rfl⟩
    rw [readTime?, hpieces]
    simp only [readDigits?_two hlt.1, readDigits?_two hlt.2.1, hseconds, Option.bind_eq_bind,
      Option.bind_some]
    cases hr with
    | within h => rw [if_neg (by omega), if_pos (by omega)]
    | atEnd h hn => rw [if_pos h.1, if_pos ⟨h.2.1, h.2.2, hn⟩]

/-! ## Offsets -/

/-- The texts of an offset: none, `Z`, or hours and minutes up to fourteen hours either way. -/
inductive OffsetText : List Char → Option Int → Prop
  | absent : OffsetText [] none
  | utc : OffsetText ['Z'] (some 0)
  | east {h m : Nat} (hh : h < 14 ∨ (h = 14 ∧ m = 0)) (hm : m < 60) :
      OffsetText ('+' :: (two h ++ ':' :: two m)) (some (h * 3600 + m * 60))
  | west {h m : Nat} (hh : h < 14 ∨ (h = 14 ∧ m = 0)) (hm : m < 60) :
      OffsetText ('-' :: (two h ++ ':' :: two m)) (some (-(h * 3600 + m * 60)))

/-- What is separated from a text is the text of an offset. -/
theorem exists_offsetText (hs : readOffset? s = some (body, offset)) :
    ∃ o, s = body ++ o ∧ OffsetText o offset := by
  unfold readOffset? at hs
  split at hs
  case h_1 front hrev =>
    obtain ⟨rfl, rfl⟩ := Prod.mk.inj (Option.some.inj hs)
    exact ⟨['Z'], by rw [← List.reverse_cons, ← hrev, List.reverse_reverse], .utc⟩
  case h_2 sign front _ hrev =>
    split at hs
    · next hsign =>
      simp only [Option.bind_eq_bind, Option.bind_eq_some_iff, Option.ite_none_left_eq_some] at hs
      obtain ⟨hours, hhours, minutes, hminutes, hlimit, hs⟩ := hs
      obtain ⟨rfl, rfl⟩ := Prod.mk.inj (Option.some.inj hs)
      obtain ⟨-, hhours⟩ := readDigits?_two_iff.1 hhours
      obtain ⟨-, hminutes⟩ := readDigits?_two_iff.1 hminutes
      have htext : s = front.reverse ++ sign :: (two hours ++ ':' :: two minutes) := by
        rw [← hhours, ← hminutes, ← List.reverse_inj, hrev]
        simp
      refine ⟨_, htext, ?_⟩
      rcases hsign with rfl | rfl
      · exact .east (by omega) (by omega)
      · exact .west (by omega) (by omega)
    · obtain ⟨rfl, rfl⟩ := Prod.mk.inj (Option.some.inj hs)
      exact ⟨[], (List.append_nil _).symm, .absent⟩
  case h_3 =>
    obtain ⟨rfl, rfl⟩ := Prod.mk.inj (Option.some.inj hs)
    exact ⟨[], (List.append_nil _).symm, .absent⟩

/-- Hours and minutes behind a sign are read as an offset. -/
theorem readOffset?_signed {sign : Char} {h m : Nat} (hsign : sign = '+' ∨ sign = '-')
    (hh : h < 14 ∨ (h = 14 ∧ m = 0)) (hm : m < 60) :
    readOffset? (s ++ sign :: (two h ++ ':' :: two m)) =
      some (s, some (if sign = '-' then -(h * 3600 + m * 60 : Int) else h * 3600 + m * 60)) := by
  obtain ⟨a, b, hab⟩ := List.length_eq_two.1 (length_two (show h < 100 by omega))
  obtain ⟨c, d, hcd⟩ := List.length_eq_two.1 (length_two (show m < 100 by omega))
  have hd : d.isDigit := isDigit_of_mem_two (show d ∈ two m by rw [hcd]; simp)
  have hhours := readDigits?_two (show h < 100 by omega)
  have hminutes := readDigits?_two (show m < 100 by omega)
  rw [hab] at hhours
  rw [hcd] at hminutes
  have htext : (s ++ sign :: (two h ++ ':' :: two m)).reverse =
      d :: c :: ':' :: b :: a :: sign :: s.reverse := by
    simp [hab, hcd]
  unfold readOffset?
  rw [htext]
  split
  case h_1 hrev => exact absurd (List.cons.inj hrev).1 (isDigit_ne hd).2
  case h_2 hrev =>
    cases hrev
    rw [if_pos hsign]
    simp only [hhours, hminutes, Option.bind_eq_bind, Option.bind_some, List.reverse_reverse]
    rw [if_neg (by omega)]
  case h_3 hother => exact absurd rfl (hother _ _ _ _ _ _)

/-- A bare text and the text of an offset behind it are told apart. -/
theorem OffsetText.readOffset?_append {o : List Char} (ho : OffsetText o offset) (hs : Bare s) :
    readOffset? (s ++ o) = some (s, offset) := by
  cases ho with
  | absent =>
    rw [List.append_nil]
    exact hs.readOffset?
  | utc => simp [readOffset?]
  | east hh hm => exact readOffset?_signed (.inl rfl) hh hm
  | west hh hm => exact readOffset?_signed (.inr rfl) hh hm

/-- A clock does not end like a text with an offset. -/
theorem Bare.of_clock {c : Clock} (hm : c.minute < 100) (hs : c.second < 100)
    (hc : allDigits c.fraction) (front : List Char) : Bare (front ++ c.text) := by
  have hsecond := length_two hs
  by_cases hfraction : c.fraction = []
  · -- The third character from the end is a colon here, and so is the sixth one.
    obtain ⟨a, b, htwo⟩ := List.length_eq_two.1 hsecond
    obtain ⟨d, e, htwo'⟩ := List.length_eq_two.1 (length_two hm)
    have hb : b.isDigit := isDigit_of_mem_two (show b ∈ two c.second by simp [htwo])
    have htext : (front ++ c.text).reverse =
        b :: a :: ':' :: e :: d :: ':' :: (front ++ two c.hour).reverse := by
      rw [Clock.text, Clock.fractionText, if_pos hfraction, htwo, htwo']
      simp
    constructor
    · rw [htext, List.getElem?_cons_zero]
      exact fun h => (isDigit_ne hb).2 (Option.some.inj h)
    · right
      rw [htext]
      rfl
  · have htext : front ++ c.text = (front ++ two c.hour ++ ':' :: (two c.minute ++ [':'])) ++
        (two c.second ++ c.fractionText) := by
      simp [Clock.text]
    rw [htext]
    refine .of_tail ?_ fun d hd => ?_
    · rw [Clock.fractionText, if_neg hfraction, List.length_append, hsecond, List.length_cons]
      omega
    · rcases Clock.mem_seconds hc hd with hd | rfl
      · exact isDigit_ne hd
      · decide

/-! ## Texts with a clock -/

theorem two_inj {m n : Nat} (hm : m < 100) (hn : n < 100) (h : two m = two n) : m = n := by
  have hread := readDigits?_two hm
  rw [h, readDigits?_two hn] at hread
  exact (Option.some.inj hread).symm

namespace Clock

variable {c c' : Clock} {t : TimeOfDay} {endOfDay : Bool}

theorem fraction_inj (h : c.fractionText = c'.fractionText) : c.fraction = c'.fraction := by
  rw [fractionText, fractionText] at h
  split at h <;> split at h <;> simp_all

/-- No two clocks are written alike. -/
theorem eq_of_text (hlt : c.hour < 100 ∧ c.minute < 100 ∧ c.second < 100)
    (hlt' : c'.hour < 100 ∧ c'.minute < 100 ∧ c'.second < 100) (h : c.text = c'.text) : c = c' := by
  have hlength : ∀ {m n}, m < 100 → n < 100 → (two m).length = (two n).length := fun hm hn => by
    rw [length_two hm, length_two hn]
  obtain ⟨hhour, h⟩ := List.append_inj h (hlength (by omega) (by omega))
  obtain ⟨hminute, h⟩ := List.append_inj (List.cons.inj h).2 (hlength (by omega) (by omega))
  obtain ⟨hsecond, h⟩ := List.append_inj (List.cons.inj h).2 (hlength (by omega) (by omega))
  obtain ⟨hour, minute, second, fraction⟩ := c
  obtain rfl := two_inj (by omega) (by omega) hhour
  obtain rfl := two_inj (by omega) (by omega) hminute
  obtain rfl := two_inj (by omega) (by omega) hsecond
  obtain rfl := fraction_inj h
  rfl

theorem IsTime.reads (hc : c.IsTime) : c.Reads c.time (c.hour = 24) := by
  rcases hc.range with h | ⟨hhour, hminute, hsecond, hzeros⟩
  · have hday : ¬c.hour = 24 := by omega
    rw [time, if_neg hday, decide_eq_false hday]
    exact .within h
  · rw [time, if_pos hhour, decide_eq_true hhour]
    exact .atEnd ⟨hhour, hminute, hsecond⟩
      ((nanos_eq_zero_iff hc.digits).2 fun d hd => hzeros d (List.mem_of_mem_take hd))

/-- What is read shows a time, if the end of a day has nothing but zeros behind nine zeros. -/
theorem Reads.isTime (hr : c.Reads t endOfDay) (hc : allDigits c.fraction)
    (hz : c.hour = 24 → (∀ d ∈ c.fraction.take 9, d = '0') → ∀ d ∈ c.fraction, d = '0') :
    c.IsTime ∧ t = c.time ∧ endOfDay = decide (c.hour = 24) := by
  cases hr with
  | within h =>
    have hday : ¬c.hour = 24 := by omega
    rw [time, if_neg hday, decide_eq_false hday]
    exact ⟨⟨hc, .inl h⟩, rfl, rfl⟩
  | atEnd h hn =>
    rw [time, if_pos h.1, decide_eq_true h.1]
    exact ⟨⟨hc, .inr ⟨h.1, h.2.1, h.2.2, hz h.1 ((nanos_eq_zero_iff hc).1 hn)⟩⟩, rfl, rfl⟩

end Clock

/-- The text writes no fraction at the end of the day that is zero for nine digits only: neither as a
whole nor behind a `T`. -/
def EndsExactly (s : List Char) : Prop :=
  ∀ (front o : List Char) (c : Clock) (offset : Option Int), s = front ++ (c.text ++ o) →
    front = [] ∨ front.getLast? = some 'T' → OffsetText o offset → c.hour = 24 →
    (∀ d ∈ c.fraction.take 9, d = '0') → ∀ d ∈ c.fraction, d = '0'

/-- Nine digits are all there are in a short text. -/
theorem EndsExactly.of_length_le (hs : s.length ≤ 18) : EndsExactly s := by
  rintro front o c offset rfl - - - hzeros
  have hlength : c.fraction.length ≤ 9 := by
    by_contra hlt
    have hne : c.fraction ≠ [] := fun h => hlt (by simp [h])
    have htwo : ∀ n, 2 ≤ (two n).length := fun n => by
      rw [two, length_padded]
      omega
    have := htwo c.hour
    have := htwo c.minute
    have := htwo c.second
    simp only [Clock.text, Clock.fractionText, if_neg hne, List.length_append, List.length_cons] at hs
    omega
  rwa [List.take_of_length_le hlength] at hzeros

/-- A text is taken apart into a moment and an offset behind it. -/
theorem Temporal.read?_eq_some_iff {type : ItemType} {t : Temporal} (htype : type ≠ .dateTimeStamp) :
    Temporal.read? type s = some t ↔
      ∃ body, readOffset? (trim s) = some (body, t.offset) ∧ readMoment? type body = some t.moment := by
  simp only [Temporal.read?, Option.bind_eq_bind, Option.bind_eq_some_iff, Prod.exists, htype, false_and,
    if_false]
  constructor
  · rintro ⟨body, offset, ho, m, hm, ht⟩
    cases ht
    exact ⟨body, ho, hm⟩
  · rintro ⟨body, ho, hm⟩
    exact ⟨body, t.offset, ho, t.moment, hm, rfl⟩

/-- The text of a time: a clock, and an offset behind it. -/
structure TimeText (s : List Char) (c : Clock) (offset : Option Int) : Prop where
  clock : c.IsTime
  text : ∃ o, s = c.text ++ o ∧ OffsetText o offset

/-- Whatever stands in front, the reader separates the offset from the clock and reads the clock. -/
theorem TimeText.read {c : Clock} (ht : TimeText s c offset) (front : List Char) :
    readOffset? (front ++ s) = some (front ++ c.text, offset) ∧
      readTime? c.text = some (c.time, decide (c.hour = 24)) := by
  obtain ⟨hc, o, rfl, ho⟩ := ht
  have hlt : c.minute < 100 ∧ c.second < 100 := by
    have := hc.range
    omega
  rw [← List.append_assoc]
  exact ⟨ho.readOffset?_append (.of_clock hlt.1 hlt.2 hc.digits front),
    readTime?_iff.2 ⟨c, rfl, hc.digits, hc.reads⟩⟩

/-- What is read behind a front is the text of a time. -/
theorem exists_timeText (front : List Char) {t : TimeOfDay} {endOfDay : Bool} (hz : EndsExactly s)
    (hfront : front = [] ∨ front.getLast? = some 'T')
    (ho : readOffset? s = some (front ++ body, offset)) (ht : readTime? body = some (t, endOfDay)) :
    ∃ rest c, s = front ++ rest ∧ TimeText rest c offset ∧ t = c.time ∧
      endOfDay = decide (c.hour = 24) := by
  obtain ⟨o, rfl, hoffset⟩ := exists_offsetText ho
  obtain ⟨c, rfl, hdigits, hr⟩ := readTime?_iff.1 ht
  obtain ⟨hc, rfl, rfl⟩ := hr.isTime hdigits (hz front o c offset (List.append_assoc ..) hfront hoffset)
  exact ⟨c.text ++ o, c, List.append_assoc .., ⟨hc, o, rfl, hoffset⟩, rfl, rfl⟩

/-- A date and a time have a `T` between them, and a time at the end of a day needs a day that follows. -/
theorem readMoment?_dateTime_iff {m : Moment} :
    readMoment? .dateTime body = some m ↔
      ∃ d rest date time endOfDay, body = d ++ 'T' :: rest ∧ 'T' ∉ d ∧ readDate? d = some date ∧
        readTime? rest = some (time, endOfDay) ∧
        if endOfDay then date.next.inRange ∧ m = ⟨date.next, time⟩ else m = ⟨date, time⟩ := by
  simp only [readMoment?, Option.bind_eq_bind, Option.bind_eq_some_iff, Prod.exists]
  constructor
  · rintro ⟨d, rest, hcut, time, endOfDay, htime, date, hdate, hm⟩
    obtain ⟨rfl, hd⟩ := cutAt_eq_some hcut
    refine ⟨d, rest, date, time, endOfDay, rfl, hd, hdate, htime, ?_⟩
    cases endOfDay with
    | true =>
      obtain ⟨hnext, hm⟩ := Option.ite_none_right_eq_some.1 hm
      exact ⟨hnext, (Option.some.inj hm).symm⟩
    | false => exact (Option.some.inj hm).symm
  · rintro ⟨d, rest, date, time, endOfDay, rfl, hd, hdate, htime, hm⟩
    refine ⟨d, rest, cutAt_append hd, time, endOfDay, htime, date, hdate, ?_⟩
    cases endOfDay with
    | true => exact Option.ite_none_right_eq_some.2 ⟨hm.1, congrArg some hm.2.symm⟩
    | false => exact congrArg some hm.symm

theorem Temporal.read?_time_iff {t : Temporal} (hz : EndsExactly (trim s)) :
    Temporal.read? .time s = some t ↔
      ∃ c : Clock, TimeText (trim s) c t.offset ∧ t.moment = ⟨⟨1972, 12, 31⟩, c.time⟩ := by
  rw [Temporal.read?_eq_some_iff (by decide)]
  constructor
  · rintro ⟨body, ho, hm⟩
    obtain ⟨⟨time, endOfDay⟩, htime, hm⟩ := Option.map_eq_some_iff.1 hm
    obtain ⟨rest, c, hs, htext, rfl, -⟩ := exists_timeText [] hz (.inl rfl) ho htime
    exact ⟨c, hs ▸ htext, hm.symm⟩
  · rintro ⟨c, htext, hm⟩
    obtain ⟨ho, htime⟩ := htext.read []
    refine ⟨c.text, ho, ?_⟩
    rw [readMoment?, htime, hm]
    rfl

theorem Temporal.read?_dateTime_iff {t : Temporal} (hz : EndsExactly (trim s)) :
    Temporal.read? .dateTime s = some t ↔
      ∃ d rest date, ∃ c : Clock, trim s = d ++ 'T' :: rest ∧ 'T' ∉ d ∧
        readDate? d = some date ∧ TimeText rest c t.offset ∧
        if c.hour = 24 then date.next.inRange ∧ t.moment = ⟨date.next, c.time⟩
        else t.moment = ⟨date, c.time⟩ := by
  rw [Temporal.read?_eq_some_iff (by decide)]
  constructor
  · rintro ⟨body, ho, hm⟩
    obtain ⟨d, tail, date, time, endOfDay, rfl, hd, hdate, htime, hm⟩ := readMoment?_dateTime_iff.1 hm
    obtain ⟨rest, c, hs, htext, rfl, rfl⟩ := exists_timeText (d ++ ['T']) hz
      (.inr List.getLast?_concat) (by simpa using ho) htime
    exact ⟨d, rest, date, c, by simpa using hs, hd, hdate, htext, by simpa using hm⟩
  · rintro ⟨d, rest, date, c, hs, hd, hdate, htext, hm⟩
    obtain ⟨ho, htime⟩ := htext.read (d ++ ['T'])
    exact ⟨d ++ 'T' :: c.text, by simpa [hs] using ho,
      readMoment?_dateTime_iff.2 ⟨d, _, date, _, _, rfl, hd, hdate, htime, by simpa using hm⟩⟩

/-- The texts of times are the ones that are read, alone and behind a date; a time is read to the
nanosecond, and the end of a day is the start of the next one. -/
theorem Temporal.parse_clock (s : String) (t : Temporal) (hz : EndsExactly (trim s.toList)) :
    (Temporal.parse .time s = .ok t ↔
      ∃ c : Clock, TimeText (trim s.toList) c t.offset ∧ t.moment = ⟨⟨1972, 12, 31⟩, c.time⟩) ∧
    (Temporal.parse .dateTime s = .ok t ↔
      ∃ d rest date, ∃ c : Clock, trim s.toList = d ++ 'T' :: rest ∧ 'T' ∉ d ∧
        readDate? d = some date ∧ TimeText rest c t.offset ∧
        if c.hour = 24 then date.next.inRange ∧ t.moment = ⟨date.next, c.time⟩
        else t.moment = ⟨date, c.time⟩) := by
  simp only [Temporal.parse_eq_ok_iff]
  exact ⟨Temporal.read?_time_iff hz, Temporal.read?_dateTime_iff hz⟩

theorem Temporal.parse_end_of_day :
    EndsExactly (trim " 24:00:00.000-14:00 ".toList) ∧
      Temporal.parse .time " 24:00:00.000-14:00 " =
        .ok ⟨⟨⟨1972, 12, 31⟩, .midnight⟩, some (-50400)⟩ := by
  have hz : EndsExactly (trim " 24:00:00.000-14:00 ".toList) := .of_length_le (by decide)
  refine ⟨hz, (Temporal.parse_clock _ _ hz).1.2
    ⟨⟨24, 0, 0, ['0', '0', '0']⟩, ⟨⟨by decide, .inr ⟨rfl, rfl, rfl, by simp⟩⟩, ?_⟩, rfl⟩⟩
  have hwest : OffsetText ('-' :: (two 14 ++ ':' :: two 0)) (some (-50400)) :=
    .west (h := 14) (m := 0) (.inr (by decide)) (by decide)
  exact ⟨_, by decide +kernel, hwest⟩

/-- A fraction is cut before it is compared with zero, so this is read as midnight. -/
theorem Temporal.parse_past_midnight :
    Temporal.parse .time "24:00:00.0000000001" = .ok ⟨⟨⟨1972, 12, 31⟩, .midnight⟩, none⟩ ∧
      ¬∃ c offset, TimeText (trim "24:00:00.0000000001".toList) c offset := by
  refine ⟨Temporal.parse_eq_ok_iff.2 (by decide), ?_⟩
  rintro ⟨c, offset, htext⟩
  have hread : readOffset? (trim "24:00:00.0000000001".toList) =
      some (Clock.text ⟨24, 0, 0, "0000000001".toList⟩, none) := by decide +kernel
  have hclock := hread.symm.trans (htext.read []).1
  have hrange := htext.clock.range
  obtain rfl := Clock.eq_of_text (by decide) (by omega) (Prod.mk.inj (Option.some.inj hclock)).1
  obtain h | ⟨-, -, -, hzeros⟩ := htext.clock.range
  · exact absurd h.1 (by decide)
  · exact absurd (hzeros '1' (by decide)) (by decide)

end XPath.Time
