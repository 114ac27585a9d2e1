import XPath.Proofs.Time.DurationReading
import XPath.Proofs.Time.DurationSplit

/-!
# Texts of durations

The components of a duration are found again in its text (`Duration.components?_bodyText`). Seconds of
at most 28 digits that come to fewer than `2 ^ 63` days are split exactly, so that the text of a
duration is read as an equal duration (`Duration.read_canonical`), and so is that of every duration that
has been read (`Duration.read_text`). Beyond either bound it need not be.
-/

namespace XPath.Time.Duration

open XPath.Text XPath.Number

/-! ## Reading components -/

/-- The text of a component that is not zero. -/
def counted (n : Nat) : Option (List Char) := if n = 0 then none else some (natDigits n)

variable {c designator : Char} {n : Nat}

theorem mem_componentText (hc : c ∈ componentText n designator) : c.isDigit ∨ c = designator := by
  rw [componentText] at hc
  split at hc
  · cases hc
  · rcases List.mem_append.1 hc with hc | hc
    · exact .inl (allDigits_iff.1 (allDigits_natDigits n) c hc)
    · exact .inr (List.mem_singleton.1 hc)

theorem not_mem_componentText (hc : c.isDigit = false) (hne : c ≠ designator) :
    c ∉ componentText n designator := fun hmem => by
  rcases mem_componentText hmem with h | h
  · rw [hc] at h
    cases h
  · exact hne h

/-- A component is taken off the front of a text that has its designator nowhere else. -/
theorem takeComponent?_componentText (n : Nat) (designator : Char) (tail : List Char)
    (hd : designator.isDigit = false) (ht : designator ∉ tail) :
    takeComponent? (componentText n designator ++ tail) designator = some (counted n, tail) := by
  rw [componentText, counted, takeComponent?]
  by_cases hn : n = 0
  · rw [if_pos hn, if_pos hn, List.nil_append, cutAt_eq_none_iff.2 ht]
  · have hdigits := allDigits_natDigits n
    have hpoint : '.' ∉ natDigits n := not_mem_of_allDigits hdigits (by decide)
    have hall : (natDigits n).all (fun c => c.isDigit || c == '.') := by
      simp only [List.all_eq_true, Bool.or_eq_true]
      exact fun c hc => .inl (allDigits_iff.1 hdigits c hc)
    rw [if_neg hn, if_neg hn, List.append_assoc, List.singleton_append,
      cutAt_append (not_mem_of_allDigits hdigits hd)]
    refine if_pos ⟨natDigits_ne_nil n, hall, ?_, ?_, ?_⟩
    · rw [List.count_eq_zero_of_not_mem hpoint]
      exact Nat.zero_le _
    · exact fun h => hpoint (List.mem_of_mem_head? h)
    · exact fun h => hpoint (List.mem_of_getLast? h)

theorem count?_counted (hn : n ≤ maxInteger) : count? (counted n) = some n := by
  rw [counted]
  split
  case isTrue h => rw [h]; rfl
  case isFalse => rw [count?, digitsValue_natDigits, if_pos hn]

variable {m : Numeral}

theorem mem_numeralText (hm : m.IsPlain) (hneg : m.negative = false) (hc : c ∈ m.text) :
    c.isDigit ∨ c = '.' := by
  rcases Numeral.mem_text hm hc with hc | hc | ⟨-, hneg'⟩
  · exact .inl hc
  · exact .inr hc
  · rw [hneg] at hneg'
    cases hneg'

/-- The seconds are taken off as a numeral. -/
theorem takeComponent?_numeral (hm : m.IsPlain) (hneg : m.negative = false) :
    takeComponent? (m.text ++ ['S']) 'S' = some (some m.text, []) := by
  have hcut : 'S' ∉ m.text := fun hmem => by
    rcases mem_numeralText hm hneg hmem with h | h <;> exact absurd h (by decide)
  have hall : m.text.all (fun c => c.isDigit || c == '.') := by
    simp only [List.all_eq_true, Bool.or_eq_true, beq_iff_eq]
    exact fun c hc => mem_numeralText hm hneg hc
  have hwhole : '.' ∉ m.whole := not_mem_of_allDigits hm.whole (by decide)
  have hfraction : '.' ∉ m.fraction := not_mem_of_allDigits hm.fraction (by decide)
  obtain ⟨c, rest, hcons⟩ := List.exists_cons_of_ne_nil hm.whole_ne_nil
  have htext : m.text = m.whole ++ if m.fraction = [] then [] else '.' :: m.fraction := by
    rw [Numeral.text, hneg]
    rfl
  rw [takeComponent?, cutAt_append hcut]
  refine if_pos ⟨?_, hall, ?_, ?_, ?_⟩
  · simp [htext, hcons]
  · rw [htext, List.count_append, List.count_eq_zero_of_not_mem hwhole]
    split
    · simp
    · simp [List.count_eq_zero_of_not_mem hfraction]
  · rw [htext, hcons, List.cons_append, List.head?_cons]
    intro h
    exact hwhole (hcons ▸ Option.some.inj h ▸ List.mem_cons_self)
  · intro h
    rw [htext] at h
    split at h
    · rw [List.append_nil] at h
      exact hwhole (List.mem_of_getLast? h)
    · next hne =>
      obtain ⟨c', rest', hcons'⟩ := List.exists_cons_of_ne_nil hne
      have hlast : ('.' :: m.fraction).getLast? = m.fraction.getLast? := by
        rw [hcons', List.getLast?_cons_cons]
      rw [List.getLast?_append, hlast] at h
      cases hf : m.fraction.getLast? with
      | none => exact hne (List.getLast?_eq_none_iff.1 hf)
      | some c'' =>
        rw [hf] at h
        exact hfraction (List.mem_of_getLast? (hf.trans h))

/-- The text of the seconds, if there are any. -/
def secondsText : Option Numeral → List Char
  | none => []
  | some m => m.text ++ ['S']

def timeText (hours minutes : Nat) (seconds : Option Numeral) : List Char :=
  componentText hours 'H' ++ (componentText minutes 'M' ++ secondsText seconds)

/-- The text of a duration after its `P`. -/
def bodyText (years months days hours minutes : Nat) (seconds : Option Numeral) : List Char :=
  let time := timeText hours minutes seconds
  componentText years 'Y' ++ (componentText months 'M' ++ (componentText days 'D' ++
    if time = [] then [] else 'T' :: time))

variable {years months days hours minutes : Nat} {seconds : Option Numeral}

theorem mem_secondsText (hs : ∀ m ∈ seconds, m.IsPlain ∧ m.negative = false)
    (hc : c ∈ secondsText seconds) : c.isDigit ∨ c = '.' ∨ c = 'S' := by
  cases seconds with
  | none => cases hc
  | some m =>
    obtain ⟨hm, hneg⟩ := hs m rfl
    rcases List.mem_append.1 hc with hc | hc
    · exact (mem_numeralText hm hneg hc).imp_right .inl
    · exact .inr (.inr (List.mem_singleton.1 hc))

theorem takeComponent?_seconds (hs : ∀ m ∈ seconds, m.IsPlain ∧ m.negative = false) :
    takeComponent? (secondsText seconds) 'S' = some (seconds.map Numeral.text, []) := by
  cases seconds with
  | none => rfl
  | some m => exact takeComponent?_numeral (hs m rfl).1 (hs m rfl).2

theorem componentText_eq_nil : componentText n designator = [] ↔ n = 0 := by
  rw [componentText]
  split
  case isTrue h => simp [h]
  case isFalse h => simp [h]

theorem timeText_eq_nil :
    timeText hours minutes seconds = [] ↔ hours = 0 ∧ minutes = 0 ∧ seconds = none := by
  rw [timeText, List.append_eq_nil_iff, List.append_eq_nil_iff, componentText_eq_nil,
    componentText_eq_nil]
  cases seconds <;> simp [secondsText]

theorem counted_eq_none : counted n = none ↔ n = 0 := by
  rw [counted]
  split <;> simp_all

theorem not_mem_secondsText (hs : ∀ m ∈ seconds, m.IsPlain ∧ m.negative = false)
    (hc : c.isDigit = false) (hpoint : c ≠ '.') (hne : c ≠ 'S') : c ∉ secondsText seconds :=
  fun hmem => by
    rcases mem_secondsText hs hmem with h | h | h
    · rw [hc] at h
      cases h
    · exact hpoint h
    · exact hne h

/-- The components are found again in the text of a duration, if there is one at all. -/
theorem components?_bodyText (years months days hours minutes : Nat)
    (hs : ∀ m ∈ seconds, m.IsPlain ∧ m.negative = false)
    (hsome : ¬(years = 0 ∧ months = 0 ∧ days = 0 ∧ timeText hours minutes seconds = [])) :
    components? (bodyText years months days hours minutes seconds) =
      some ⟨counted years, counted months, counted days, counted hours, counted minutes,
        seconds.map Numeral.text⟩ := by
  have component : ∀ {c n designator}, c.isDigit = false → c ≠ designator →
    c ∉ componentText n designator := not_mem_componentText
  have hyears := takeComponent?_componentText years 'Y'
    (componentText months 'M' ++ componentText days 'D') rfl
    (List.not_mem_append (component rfl (by decide)) (component rfl (by decide)))
  have hmonths := takeComponent?_componentText months 'M' (componentText days 'D')
    rfl (component rfl (by decide))
  have hdays := takeComponent?_componentText days 'D' [] rfl List.not_mem_nil
  have hhours := takeComponent?_componentText hours 'H'
    (componentText minutes 'M' ++ secondsText seconds) rfl
    (List.not_mem_append (component rfl (by decide))
      (not_mem_secondsText hs rfl (by decide) (by decide)))
  have hminutes := takeComponent?_componentText minutes 'M' (secondsText seconds) rfl
    (not_mem_secondsText hs rfl (by decide) (by decide))
  have hdate : 'T' ∉ componentText years 'Y' ++ (componentText months 'M' ++ componentText days 'D') :=
    List.not_mem_append (component rfl (by decide))
      (List.not_mem_append (component rfl (by decide)) (component rfl (by decide)))
  rw [List.append_nil] at hdays
  rw [components?, bodyText]
  by_cases htime : timeText hours minutes seconds = []
  · obtain ⟨rfl, rfl, rfl⟩ := timeText_eq_nil.1 htime
    have hcut := cutAt_eq_none_iff.2 hdate
    have hnone : ¬(counted years = none ∧ counted months = none ∧ counted days = none) := by
      simp only [counted_eq_none]
      exact fun h => hsome ⟨h.1, h.2.1, h.2.2, htime⟩
    simp only [htime, if_true, List.append_nil, hcut]
    simp [hyears, hmonths, hdays, hnone, show counted 0 = none from rfl]
  · have hcut : cutAt 'T' (_ ++ 'T' :: timeText hours minutes seconds) = _ := cutAt_append hdate
    have hnone : ¬(counted hours = none ∧ counted minutes = none ∧ seconds = none) := by
      simp only [counted_eq_none]
      exact fun h => htime (timeText_eq_nil.2 h)
    rw [List.append_assoc, List.append_assoc] at hcut
    simp only [htime, if_false, hcut]
    simp only [timeText, hyears, hmonths, hdays, hhours, hminutes, takeComponent?_seconds hs,
      Option.bind_eq_bind, Option.bind_some]
    simpa using hnone

/-! ## The whole text -/

variable {x : Decimal} {a k : Nat}

theorem wholeText_amount (designator : Char) (hx : x.IsAmount n 0) (hn : n ≤ maxInteger) :
    (if x.isZero then [] else wholeText x ++ [designator]) = componentText n designator := by
  rw [componentText]
  by_cases h0 : n = 0
  · rw [if_pos (hx.isZero_iff.2 h0), if_pos h0]
  · have htruncate : x.truncate = n := by
      rw [Decimal.truncate, hx.negative, hx.coefficient, hx.scale h0]
      simp
    rw [if_neg (mt hx.isZero_iff.1 h0), if_neg h0, wholeText, htruncate]
    simp only [Int.natAbs_natCast, hn, if_true]
    rw [show intText n = String.ofList (natDigits n) from rfl, String.toList_ofList]

/-- The numeral of a decimal that is not zero. -/
def secondsNumeral (x : Decimal) : Option Numeral := if x.isZero then none else some x.numeral

theorem secondsText_amount (x : Decimal) :
    (if x.isZero then [] else x.text ++ ['S']) = secondsText (secondsNumeral x) := by
  rw [secondsNumeral]
  split
  · rfl
  · rw [secondsText, Decimal.text_eq]

variable {type : ItemType} {d : Duration} {left : Decimal} {b j : Nat}

/-- The text of a duration that is not zero. -/
theorem text_eq (hne : ¬(d.months.natAbs = 0 ∧ d.seconds.isZero)) :
    d.text type =
      let part (n : Decimal) (designator : Char) : List Char :=
        if n.isZero then [] else wholeText n ++ [designator]
      let left := secondPart d.seconds.abs
      let time := part (hourPart d.seconds.abs) 'H' ++ part (minutePart d.seconds.abs) 'M' ++
        (if left.isZero then [] else left.text ++ ['S'])
      (if d.months < 0 || d.seconds.isBelowZero then ['-', 'P'] else ['P']) ++
        componentText (d.months.natAbs / 12) 'Y' ++ componentText (d.months.natAbs % 12) 'M' ++
        part (dayPart d.seconds.abs) 'D' ++ (if time = [] then [] else 'T' :: time) :=
  if_neg hne

theorem text_of_split (type : ItemType) (hne : ¬(d.months.natAbs = 0 ∧ d.seconds.isZero))
    (hs : Split a k days hours minutes b j) (hdays : (dayPart d.seconds.abs).IsAmount days 0)
    (hhours : (hourPart d.seconds.abs).IsAmount hours 0)
    (hminutes : (minutePart d.seconds.abs).IsAmount minutes 0) :
    d.text type = (if d.months < 0 || d.seconds.isBelowZero then ['-', 'P'] else ['P']) ++
      bodyText (d.months.natAbs / 12) (d.months.natAbs % 12) days hours minutes
        (secondsNumeral (secondPart d.seconds.abs)) := by
  have hmax : maxInteger = 2 ^ 63 - 1 := rfl
  have hhours_lt := hs.hours_lt
  have hminutes_lt := hs.minutes_lt
  rw [text_eq hne]
  simp only [wholeText_amount 'D' hdays hs.days_le, wholeText_amount 'H' hhours (by omega),
    wholeText_amount 'M' hminutes (by omega), secondsText_amount]
  simp only [bodyText, timeText, List.append_assoc]
  rfl

/-- The number that the text of the seconds stands for; none are zero. -/
def secondsValue? : Option (List Char) → Option Decimal
  | none => some .zero
  | some s => (Numeral.read? s).bind Decimal.ofNumeral?

theorem secondParts?_counted {y m s : Option (List Char)} (hdays : days ≤ maxInteger)
    (hhours : hours ≤ maxInteger) (hminutes : minutes ≤ maxInteger) :
    Components.secondParts? ⟨y, m, counted days, counted hours, counted minutes, s⟩ =
      (secondsValue? s).map
        fun fraction => (.ofInt (days * 86400 + hours * 3600 + minutes * 60 : Nat), fraction) := by
  rw [Components.secondParts?]
  simp only [count?_counted hdays, count?_counted hhours, count?_counted hminutes,
    Option.bind_eq_bind, Option.bind_some]
  cases s with
  | none => rfl
  | some s =>
    show ((Numeral.read? s).bind Decimal.ofNumeral?).bind _ =
      ((Numeral.read? s).bind Decimal.ofNumeral?).map _
    cases (Numeral.read? s).bind Decimal.ofNumeral? <;> rfl

/-- The rest of the seconds is read back. -/
theorem exists_secondsValue (hl : left.IsAmount b j) :
    ∃ fraction, secondsValue? ((secondsNumeral left).map Numeral.text) = some fraction ∧
      fraction.IsAmount b j ∧ fraction.units = left.units := by
  rw [secondsNumeral]
  by_cases hzero : left.isZero
  · have hb : b = 0 := hl.isZero_iff.1 hzero
    refine ⟨.zero, by rw [if_pos hzero]; rfl, hb ▸ Decimal.isAmount_zero j, ?_⟩
    rw [Decimal.units_eq_zero hzero]
    rfl
  · have hsame : { left with negative := left.negative && left.coefficient ≠ 0 } = left := by
      obtain ⟨negative, c, s, hc, hs⟩ := left
      obtain rfl : negative = false := hl.negative
      rfl
    refine ⟨left, ?_, hl, rfl⟩
    rw [if_neg hzero]
    show (Numeral.read? left.numeral.text).bind Decimal.ofNumeral? = some left
    rw [← Decimal.text_eq, Decimal.read_numeralText, hsame]

/-- The seconds of the components add up again. -/
theorem exists_seconds {y m : Option (List Char)} (hs : Split a k days hours minutes b j)
    (hx : x.IsAmount a k) (hk : k ≤ maxScale) (hl : left.IsAmount b j) :
    ∃ whole fraction z,
      Components.secondParts? ⟨y, m, counted days, counted hours, counted minutes,
        (secondsNumeral left).map Numeral.text⟩ = some (whole, fraction) ∧
      whole.add? fraction = some z ∧ z.units = x.units := by
  have hmax : maxInteger = 2 ^ 63 - 1 := rfl
  have hhours := hs.hours_lt
  have hminutes := hs.minutes_lt
  have hunits := hs.units_eq hx hk hl
  have hfit := Nat.lt_of_le_of_lt hs.le hx.lt
  have hparts : Components.secondParts? ⟨y, m, counted days, counted hours, counted minutes,
    (secondsNumeral left).map Numeral.text⟩ = _ :=
    secondParts?_counted hs.days_le (by omega) (by omega)
  generalize days * 86400 + hours * 3600 + minutes * 60 = total at hunits hfit hparts
  have hle : total ≤ total * 10 ^ j := Nat.le_mul_of_pos_right _ (Nat.pow_pos (by decide))
  have hwhole : (Decimal.ofInt total).IsAmount total 0 := Decimal.isAmount_ofInt (by omega)
  obtain ⟨fraction, hread, hamount, hvalue⟩ := exists_secondsValue hl
  obtain ⟨z, hz, -, hsum⟩ := hwhole.exists_add? hamount hfit
  refine ⟨_, fraction, z, by rw [hparts, hread]; rfl, hz, ?_⟩
  rw [hsum, hvalue, hwhole.units_eq, Nat.sub_zero, hunits]

theorem secondsNumeral_plain (hl : left.IsAmount b j) :
    ∀ m ∈ secondsNumeral left, m.IsPlain ∧ m.negative = false := by
  intro m hm
  obtain ⟨-, hm⟩ := Option.ite_none_left_eq_some.1 hm
  rw [← Option.some.inj hm]
  exact ⟨left.isPlain_numeral, hl.negative⟩

theorem secondsNumeral_eq_none (hl : left.IsAmount b j) : secondsNumeral left = none ↔ b = 0 := by
  rw [secondsNumeral, ← hl.isZero_iff]
  split
  case isTrue h => exact iff_of_true rfl h
  case isFalse h => exact iff_of_false (by simp) h

/-- The sign and the places of no seconds do not show. -/
theorem text_of_isZero (type : ItemType) (hz : d.seconds.isZero) :
    d.text type = (⟨d.months, .zero⟩ : Duration).text type := by
  by_cases hm : d.months = 0
  · have hnone : ∀ {x : Decimal}, x.isZero → (⟨0, x⟩ : Duration).text type =
        (if type = .yearMonthDuration then "P0M" else "PT0S").toList := fun hx => if_pos ⟨rfl, hx⟩
    obtain ⟨months, seconds⟩ := d
    obtain rfl : months = 0 := hm
    rw [hnone hz, hnone rfl]
  · have hmonths : ∀ {x : Decimal}, x.isZero → (⟨d.months, x⟩ : Duration).text type =
        (if d.months < 0 then ['-', 'P'] else ['P']) ++
          bodyText (d.months.natAbs / 12) (d.months.natAbs % 12) 0 0 0 none := by
      intro x hx
      have hzero : x.abs.IsAmount 0 0 :=
        ⟨rfl, show x.coefficient = 0 by simpa [Decimal.isZero] using hx, fun h => absurd rfl h⟩
      have hsign : x.isBelowZero = false := by
        rw [Decimal.isBelowZero, hx, Bool.not_true, Bool.and_false]
      obtain ⟨days, hours, minutes, b, j, hsplit, hdays, hhours, hminutes, hseconds⟩ :=
        exists_split hzero (by decide) (by decide)
      have hne : ¬(d.months.natAbs = 0 ∧ x.isZero) := fun h => hm (Int.natAbs_eq_zero.1 h.1)
      rw [text_of_split (d := ⟨d.months, x⟩) type hne hsplit hdays hhours hminutes]
      obtain ⟨rfl, rfl, rfl, hb⟩ := hsplit.eq_zero
      simp [hsign, (secondsNumeral_eq_none hseconds).2 hb]
    exact (hmonths hz).trans (hmonths rfl).symm

/-- The components of a text suit the type of the duration that it was made from. -/
theorem suits_counted {y m : Nat}
    (hyearMonth : type = .yearMonthDuration → days = 0 ∧ hours = 0 ∧ minutes = 0 ∧ seconds = none)
    (hdayTime : type = .dayTimeDuration → y = 0 ∧ m = 0) :
    Components.suits ⟨counted y, counted m, counted days, counted hours, counted minutes,
      seconds.map Numeral.text⟩ type := by
  rw [Components.suits, Bool.and_eq_true]
  constructor
  · by_cases htype : type = .yearMonthDuration
    · obtain ⟨rfl, rfl, rfl, rfl⟩ := hyearMonth htype
      simp [counted]
    · simp [htype]
  · by_cases htype : type = .dayTimeDuration
    · obtain ⟨rfl, rfl⟩ := hdayTime htype
      simp [counted]
    · simp [htype]

theorem totalMonths?_counted {dd hh mm ss : Option (List Char)} {n : Nat} (hn : n ≤ maxInteger) :
    Components.totalMonths? ⟨counted (n / 12), counted (n % 12), dd, hh, mm, ss⟩ = some n := by
  rw [Components.totalMonths?]
  simp only [count?_counted (show n / 12 ≤ maxInteger by omega),
    count?_counted (show n % 12 ≤ maxInteger by omega), Option.bind_eq_bind, Option.bind_some]
  rw [show n / 12 * 12 + n % 12 = n by omega, if_pos hn]

theorem not_isBlank_of_mem_bodyText (hs : ∀ m ∈ seconds, m.IsPlain ∧ m.negative = false)
    (hc : c ∈ bodyText years months days hours minutes seconds) : ¬isBlank c := by
  have component : ∀ {n designator}, ¬isBlank designator → c ∈ componentText n designator →
      ¬isBlank c := by
    intro n designator hd hc
    rcases mem_componentText hc with hdigit | rfl
    · exact not_isBlank_of_isDigit hdigit
    · exact hd
  have time : c ∈ timeText hours minutes seconds → ¬isBlank c := by
    intro hc
    rcases List.mem_append.1 hc with hc | hc
    · exact component (by decide) hc
    · rcases List.mem_append.1 hc with hc | hc
      · exact component (by decide) hc
      · rcases mem_secondsText hs hc with hdigit | rfl | rfl
        · exact not_isBlank_of_isDigit hdigit
        · decide
        · decide
  rcases List.mem_append.1 hc with hc | hc
  · exact component (by decide) hc
  · rcases List.mem_append.1 hc with hc | hc
    · exact component (by decide) hc
    · rcases List.mem_append.1 hc with hc | hc
      · exact component (by decide) hc
      · split at hc
        · cases hc
        · rcases List.mem_cons.1 hc with rfl | hc
          · decide
          · exact time hc

/-- A text with a sign, a `P` and components is read by its components. -/
theorem read_signed {body : List Char} (type : ItemType) (negative : Bool)
    (hblank : ∀ c ∈ body, ¬isBlank c) :
    read type ((if negative then ['-', 'P'] else ['P']) ++ body) =
      match components? body with
      | none => .malformed
      | some c =>
        if !c.suits type then .malformed
        else match c.totalMonths?, c.secondParts? with
          | some months, some (whole, fraction) =>
            match whole.add? fraction with
            | some seconds => .value (Duration.signed negative ⟨months, seconds⟩)
            | none => .tooLarge
          | _, _ => .malformed := by
  have htrim : trim ((if negative then ['-', 'P'] else ['P']) ++ body) =
      (if negative then ['-', 'P'] else ['P']) ++ body := by
    refine trim_of_not_blank fun c hc => ?_
    rcases List.mem_append.1 hc with hc | hc
    · have : c = '-' ∨ c = 'P' := by
        cases negative with
        | true => simpa using hc
        | false => exact .inr (by simpa using hc)
      rcases this with rfl | rfl <;> decide
    · exact hblank c hc
  rw [read, htrim]
  cases negative <;> rfl

theorem read_zeroText (type : ItemType) :
    ∃ z, read type (if type = .yearMonthDuration then "P0M" else "PT0S").toList = .value ⟨0, z⟩ ∧
      z.units = 0 := by
  split
  case isTrue h =>
    subst h
    exact ⟨_, rfl, rfl⟩
  case isFalse h =>
    have hcomponents : components? "T0S".toList =
      some ⟨none, none, none, none, none, some ['0']⟩ := by rfl
    have hsuits : Components.suits ⟨none, none, none, none, none, some ['0']⟩ type := by
      simp [Components.suits, h]
    have hblank : ∀ c ∈ "T0S".toList, ¬isBlank c := by simp [isBlank]
    have hread := read_signed type false hblank
    refine ⟨.zero, hread.trans ?_, rfl⟩
    rw [hcomponents]
    simp only [hsuits, Bool.not_true, Bool.false_eq_true, if_false]
    rfl

/-! ## Signs -/

theorem units_abs (x : Decimal) : x.abs.units = x.units.natAbs := by
  rw [← Int.natAbs_of_nonneg (Decimal.units_nonneg (x := x.abs) rfl),
    Decimal.IsAmount.units_natAbs, Decimal.IsAmount.units_natAbs]
  rfl

theorem isBelowZero_iff : x.isBelowZero ↔ x.units < 0 := by
  have hpow : (0 : Int) < (Nat.pow 10 (maxScale - x.scale) : Nat) :=
    Int.natCast_pos.2 (Nat.pow_pos (by decide))
  rw [Decimal.isBelowZero, Decimal.isZero, Decimal.units, Bool.and_eq_true, Bool.not_eq_true',
    decide_eq_false_iff_not, ← not_le (a := (0 : Int)), Int.mul_nonneg_iff_of_pos_right hpow,
    Decimal.signed]
  cases x.negative <;> simp

/-- The totals of a duration without their sign, with the sign of its text in front again. -/
theorem signed_totals {negative : Bool} {z : Decimal} (hd : d.InSpace type)
    (hnegative : negative = (d.months < 0 || d.seconds.isBelowZero))
    (hz : z.units = d.seconds.abs.units) :
    (Duration.signed negative ⟨d.months.natAbs, z⟩).months = d.months ∧
      (Duration.signed negative ⟨d.months.natAbs, z⟩).seconds.equal d.seconds := by
  have hsign := hd.sameSign
  have hiff : negative = true ↔ d.months < 0 ∨ d.seconds.units < 0 := by
    rw [hnegative, Bool.or_eq_true, decide_eq_true_iff, isBelowZero_iff]
  rw [units_abs] at hz
  rw [Decimal.equal, decide_eq_true_iff]
  cases negative with
  | false =>
    have hnonneg := mt hiff.2 Bool.false_ne_true
    show (d.months.natAbs : Int) = d.months ∧ z.units = d.seconds.units
    omega
  | true =>
    have hneg := hiff.1 rfl
    show -(d.months.natAbs : Int) = d.months ∧ (-z).units = d.seconds.units
    rw [Decimal.units_neg]
    omega

/-- The text of a split duration is read as the duration again. -/
theorem read_bodyText (negative : Bool) (hn : n ≤ maxInteger) (hx : x.IsAmount a k)
    (hk : k ≤ maxScale) (hs : Split a k days hours minutes b j) (hleft : left.IsAmount b j)
    (hyearMonth : type = .yearMonthDuration → a = 0) (hdayTime : type = .dayTimeDuration → n = 0)
    (hne : ¬(n = 0 ∧ a = 0)) :
    ∃ z, read type ((if negative then ['-', 'P'] else ['P']) ++
        bodyText (n / 12) (n % 12) days hours minutes (secondsNumeral left)) =
      .value (Duration.signed negative ⟨n, z⟩) ∧ z.units = x.units := by
  have hplain := secondsNumeral_plain hleft
  have hnone := secondsNumeral_eq_none hleft
  have hempty : a = 0 → days = 0 ∧ hours = 0 ∧ minutes = 0 ∧ secondsNumeral left = none := by
    rintro rfl
    obtain ⟨hdays, hhours, hminutes, hb⟩ := hs.eq_zero
    exact ⟨hdays, hhours, hminutes, hnone.2 hb⟩
  have hcomponents := components?_bodyText (n / 12) (n % 12) days hours minutes hplain (by
    rintro ⟨hyears, hmonths, rfl, htime⟩
    obtain ⟨rfl, rfl, hseconds⟩ := timeText_eq_nil.1 htime
    refine hne ⟨by omega, ?_⟩
    rw [← hs.sum, hnone.1 hseconds]
    simp)
  have hsuits : Components.suits ⟨counted (n / 12), counted (n % 12), counted days, counted hours,
      counted minutes, (secondsNumeral left).map Numeral.text⟩ type :=
    suits_counted (fun h => hempty (hyearMonth h)) fun h => by
      have := hdayTime h
      omega
  obtain ⟨whole, fraction, z, hparts, hadd, hunits⟩ :=
    exists_seconds (y := counted (n / 12)) (m := counted (n % 12)) hs hx hk hleft
  refine ⟨z, ?_, hunits⟩
  rw [read_signed type negative fun c => not_isBlank_of_mem_bodyText hplain, hcomponents]
  simp only [hsuits, totalMonths?_counted hn, hparts, hadd, Bool.not_true, Bool.false_eq_true,
    if_false]

/-- Months that a text can state, and seconds of at most 28 digits that come to fewer than `2 ^ 63`
days: no digit is lost in the text. -/
structure IsWritable (d : Duration) : Prop where
  months : d.months.natAbs ≤ maxInteger
  digits : d.seconds.coefficient < 10 ^ 28
  days : d.seconds.coefficient < 2 ^ 63 * 86400 * 10 ^ d.seconds.scale

/-- A duration of a type is read back from its text, as an equal one. -/
theorem read_canonical (hd : d.InSpace type) (hw : d.IsWritable) :
    ∃ d', read type (d.text type) = .value d' ∧ d'.months = d.months ∧
      d'.seconds.equal d.seconds := by
  have habs : d.seconds.abs.IsAmount d.seconds.coefficient d.seconds.scale :=
    ⟨rfl, rfl, fun _ => rfl⟩
  by_cases hzero : d.months.natAbs = 0 ∧ d.seconds.isZero
  · obtain ⟨z, hz, hunits⟩ := read_zeroText type
    refine ⟨⟨0, z⟩, ?_, (Int.natAbs_eq_zero.1 hzero.1).symm,
      decide_eq_true (hunits.trans (Decimal.units_eq_zero hzero.2).symm)⟩
    rw [text, ← hz]
    exact congrArg (read type) (if_pos hzero)
  · obtain ⟨days, hours, minutes, b, j, hs, hday, hhour, hminute, hleft⟩ :=
      exists_split habs hw.digits hw.days
    have htext := text_of_split type hzero hs hday hhour hminute
    have hyearMonth : type = .yearMonthDuration → d.seconds.coefficient = 0 :=
      fun h => habs.isZero_iff.1 (hd.yearMonth h)
    have hdayTime : type = .dayTimeDuration → d.months.natAbs = 0 :=
      fun h => Int.natAbs_eq_zero.2 (hd.dayTime h)
    obtain ⟨z, hread, hunits⟩ := read_bodyText (d.months < 0 || d.seconds.isBelowZero) hw.months
      habs d.seconds.scale_le hs hleft hyearMonth hdayTime
      fun h => hzero ⟨h.1, habs.isZero_iff.2 h.2⟩
    exact ⟨_, htext ▸ hread, signed_totals hd rfl hunits⟩

theorem months_le_of_read {s : List Char} (hr : read type s = .value d) :
    d.months.natAbs ≤ maxInteger := by
  obtain ⟨negative, n, x, rfl, hn, -⟩ := exists_totals hr
  cases negative with
  | false => exact hn
  | true => exact (Int.natAbs_neg n).le.trans hn

/-- A duration that was read is read back from its text, as an equal one, if its seconds have at most
28 digits and come to fewer than `2 ^ 63` days. -/
theorem read_text {s : List Char} (hr : read type s = .value d)
    (hdigits : d.seconds.coefficient < 10 ^ 28)
    (hdays : d.seconds.coefficient < 2 ^ 63 * 86400 * 10 ^ d.seconds.scale) :
    ∃ d', read type (d.text type) = .value d' ∧ d'.months = d.months ∧
      d'.seconds.equal d.seconds :=
  read_canonical (read_inSpace hr) ⟨months_le_of_read hr, hdigits, hdays⟩

/-- A negative duration with all components, written with a trailing zero. -/
theorem read_text_full :
    ∃ d d', read .duration "-P1Y14M400DT25H61M06.50S".toList = .value d ∧
      read .duration (d.text .duration) = .value d' ∧ d'.months = d.months ∧
      d'.seconds.equal d.seconds := by
  have hr : read .duration "-P1Y14M400DT25H61M06.50S".toList =
      .value ⟨-26, ⟨true, 3465366650, 2, by decide, by decide⟩⟩ := by decide +kernel
  obtain ⟨d', hd'⟩ := read_text hr (by decide) (by decide)
  exact ⟨_, d', hr, hd'⟩

/-- Beyond either bound a text may be lost: a number of days above 64 bits is written as zero, and
seconds that lie just below eight days are written as eight days and a negative rest. -/
theorem read_text_lost :
    (∃ d d', read .dayTimeDuration "PT79228162514264337593543950S".toList = .value d ∧
      d.text .dayTimeDuration = "P0DT1H19M10S".toList ∧
      read .dayTimeDuration (d.text .dayTimeDuration) = .value d' ∧
      d'.seconds.equal d.seconds = false) ∧
    ∃ d, read .dayTimeDuration "PT691199.99999999999999999999999S".toList = .value d ∧
      d.text .dayTimeDuration = "P8DT-0.00000000000000000000001S".toList ∧
      read .dayTimeDuration (d.text .dayTimeDuration) = .malformed := by
  constructor
  · refine ⟨⟨0, ⟨false, 79228162514264337593543950, 0, by decide, by decide⟩⟩,
      ⟨0, ⟨false, 4750, 0, by decide, by decide⟩⟩, ?_, ?_, ?_, ?_⟩
    all_goals decide +kernel
  · refine ⟨⟨0, ⟨false, 69119999999999999999999999999, 23, by decide, by decide⟩⟩, ?_, ?_, ?_⟩
    all_goals decide +kernel

end XPath.Time.Duration
