import XPath.Proofs.Number.Numerals
import XPath.Time.Duration

/-!
# Durations as read

The components of a duration are runs of digits, so none of them is negative, and the sign in front
is that of both totals: a duration that is read never has months and seconds of opposite sign, and
one of the two derived types lacks the part that its type leaves out (`Duration.read_inSpace`).
-/

namespace XPath.Number

/-! ## Signs of results -/

namespace Decimal

variable {x y z : Decimal} {c s num den : Nat}

theorem units_neg (x : Decimal) : (-x).units = -x.units := by
  have hsigned : (-x).signed = -x.signed := by
    show (if !x.negative then -(x.coefficient : Int) else x.coefficient) = _
    rw [signed]
    cases x.negative <;> simp
  rw [units, hsigned, Int.neg_mul]
  rfl

theorem units_nonneg (hx : x.negative = false) : 0 ≤ x.units := by
  rw [units, signed, hx]
  exact Int.mul_nonneg (Int.natCast_nonneg _) (Int.natCast_nonneg _)

theorem ofParts?_negative (hz : ofParts? false c s = some z) : z.negative = false :=
  (ofParts?_eq_some hz).1

theorem fit?_negative (hz : fit? false num den s = some z) : z.negative = false := by
  induction s with
  | zero => exact ofParts?_negative hz
  | succ s ih =>
    rw [fit?] at hz
    split at hz
    case h_1 d hd =>
      cases hz
      exact ofParts?_negative hd
    case h_2 => exact ih hz

theorem add?_negative (hx : x.negative = false) (hy : y.negative = false)
    (hz : x.add? y = some z) : z.negative = false := by
  rw [Decimal.add?] at hz
  split at hz
  · cases hz
    exact hy
  · split at hz
    · cases hz
      exact hx
    · have hsum : ∀ a b : Nat, ¬x.signed * (a : Int) + y.signed * (b : Int) < 0 := by
        intro a b
        simp only [signed, hx, hy, Bool.false_eq_true, if_false, not_lt]
        positivity
      simp only [decide_eq_false (hsum _ _)] at hz
      exact fit?_negative hz

theorem ofInt_negative (n : Nat) : (ofInt n).negative = false := by
  have hneg : decide ((n : Int) < 0) = false := decide_eq_false (by omega)
  rw [ofInt, ofInt?, hneg]
  cases hparts : ofParts? false (n : Int).natAbs 0 with
  | none => rfl
  | some d => exact ofParts?_negative hparts

theorem roundRead?_negative {next : Nat} (hz : roundRead? false c s next = some z) :
    z.negative = false := by
  rw [roundRead?] at hz
  split at hz
  · exact ofParts?_negative hz
  · split at hz
    · exact ofParts?_negative hz
    · split at hz
      · cases hz
      · exact ofParts?_negative hz

theorem readFraction?_negative {digits : List Char}
    (hz : readFraction? false c s digits = some z) : z.negative = false := by
  induction digits generalizing c s with
  | nil => exact ofParts?_negative hz
  | cons digit rest ih =>
    rw [readFraction?] at hz
    split at hz
    · exact ih hz
    · exact roundRead?_negative hz

/-- A numeral without a minus sign denotes no negative number. -/
theorem ofNumeral?_negative {n : Numeral} (hn : n.negative = false) (hz : ofNumeral? n = some z) :
    z.negative = false := by
  rw [ofNumeral?, hn, Option.ite_none_right_eq_some] at hz
  exact readFraction?_negative hz.2

end Decimal

theorem Numeral.read?_negative {s : List Char} {n : Numeral} (hs : s.head? ≠ some '-')
    (hn : Numeral.read? s = some n) : n.negative = false := by
  have hsign : (takeSign s).1 = false := by
    unfold takeSign
    split
    · rfl
    · exact absurd rfl hs
    · rfl
  rw [Numeral.read?, Option.ite_none_right_eq_some] at hn
  rw [← Option.some.inj hn.2]
  exact hsign

end XPath.Number

namespace XPath.Time.Duration

open XPath.Text XPath.Number

variable {type : ItemType} {s body number rest : List Char} {c : Components} {designator : Char}

/-! ## Components -/

theorem takeComponent?_number
    (hs : takeComponent? s designator = some (some number, rest)) :
    ∀ c ∈ number, c.isDigit ∨ c = '.' := by
  rw [takeComponent?] at hs
  split at hs
  · cases hs
  · obtain ⟨hnumber, hs⟩ := Option.ite_none_right_eq_some.1 hs
    cases hs
    simpa using List.all_eq_true.1 hnumber.2.1

/-- The seconds of a duration are what stands before an `S`. -/
theorem components?_seconds (hc : components? body = some c) (hs : c.seconds = some number) :
    ∃ t rest, takeComponent? t 'S' = some (some number, rest) := by
  rw [components?] at hc
  simp only [Option.bind_eq_bind, Option.bind_eq_some_iff, Prod.exists] at hc
  obtain ⟨years, r₁, -, months, r₂, -, days, r₃, -, hc⟩ := hc
  by_cases hr : r₃ ≠ []
  · rw [if_pos hr] at hc
    cases hc
  · rw [if_neg hr] at hc
    cases hcut : cutAt 'T' body with
    | none =>
      rw [hcut] at hc
      obtain ⟨-, hc⟩ := Option.ite_none_left_eq_some.1 hc
      rw [← Option.some.inj hc] at hs
      cases hs
    | some split =>
      simp only [hcut, Option.bind_eq_some_iff, Prod.exists, Option.ite_none_left_eq_some] at hc
      obtain ⟨hours, r₄, -, minutes, r₅, -, seconds, r₆, hseconds, -, hc⟩ := hc
      obtain rfl := Option.some.inj hc
      exact ⟨r₅, r₆, hs ▸ hseconds⟩

/-- Neither part of the seconds is negative. -/
theorem secondParts?_negative {whole fraction : Decimal} (hc : components? body = some c)
    (hp : c.secondParts? = some (whole, fraction)) :
    whole.negative = false ∧ fraction.negative = false := by
  rw [Components.secondParts?] at hp
  simp only [Option.bind_eq_bind, Option.bind_eq_some_iff] at hp
  obtain ⟨days, -, hours, -, minutes, -, hp⟩ := hp
  cases hs : c.seconds with
  | none =>
    rw [hs] at hp
    cases hp
    exact ⟨Decimal.ofInt_negative _, rfl⟩
  | some number =>
    rw [hs] at hp
    obtain ⟨x, hx, hp⟩ := Option.bind_eq_some_iff.1 hp
    obtain ⟨n, hn, hx⟩ := Option.bind_eq_some_iff.1 hx
    cases hp
    obtain ⟨t, rest, hnumber⟩ := components?_seconds hc hs
    have hsign : number.head? ≠ some '-' := fun hhead => by
      have := takeComponent?_number hnumber _ (List.mem_of_mem_head? hhead)
      simp at this
    exact ⟨Decimal.ofInt_negative _, Decimal.ofNumeral?_negative (Numeral.read?_negative hsign hn) hx⟩

theorem totalMonths?_le {n : Nat} (hn : c.totalMonths? = some n) : n ≤ maxInteger := by
  rw [Components.totalMonths?] at hn
  simp only [Option.bind_eq_bind, Option.bind_eq_some_iff, Option.ite_none_right_eq_some] at hn
  obtain ⟨years, -, months, -, hle, hn⟩ := hn
  exact Option.some.inj hn ▸ hle

theorem suits_yearMonth (hc : c.suits .yearMonthDuration) :
    c.days = none ∧ c.hours = none ∧ c.minutes = none ∧ c.seconds = none := by
  simpa [Components.suits, and_assoc] using hc

theorem suits_dayTime (hc : c.suits .dayTimeDuration) : c.years = none ∧ c.months = none := by
  simpa [Components.suits] using hc

/-! ## What is read -/

/-- The duration with a sign in front. -/
protected def signed (negative : Bool) (d : Duration) : Duration := if negative then d.neg else d

/-- What is read are totals with a common sign; they lack what the type leaves out. -/
theorem exists_totals {d : Duration} (hr : read type s = .value d) :
    ∃ (negative : Bool) (months : Nat) (seconds : Decimal),
      d = Duration.signed negative ⟨months, seconds⟩ ∧ months ≤ maxInteger ∧ seconds.negative = false ∧
      (type = .yearMonthDuration → seconds.isZero) ∧ (type = .dayTimeDuration → months = 0) := by
  rw [read] at hr
  generalize dropSign '-' (trim s) = signed at hr
  obtain ⟨negative, body⟩ := signed
  simp only at hr
  split at hr
  · cases hr
  · split at hr
    · cases hr
    · next c hc =>
      split at hr
      · cases hr
      · next hsuits =>
        split at hr
        · next months whole fraction hmonths hparts =>
          split at hr
          · next seconds hsum =>
            cases hr
            refine ⟨negative, months, seconds, rfl, ?_, ?_, ?_, ?_⟩
            · exact totalMonths?_le hmonths
            · obtain ⟨hwhole, hfraction⟩ := secondParts?_negative hc hparts
              exact Decimal.add?_negative hwhole hfraction hsum
            · rintro rfl
              obtain ⟨hdays, hhours, hminutes, hseconds⟩ := suits_yearMonth (by simpa using hsuits)
              rw [Components.secondParts?, hdays, hhours, hminutes, hseconds] at hparts
              cases hparts
              cases hsum
              rfl
            · rintro rfl
              obtain ⟨hyears, hmonths'⟩ := suits_dayTime (by simpa using hsuits)
              rw [Components.totalMonths?, hyears, hmonths'] at hmonths
              cases hmonths
              rfl
          · cases hr
        · cases hr

/-- The durations of a type: the months have 64 bits, they and the seconds are not of opposite sign,
and the types of years and months and of days and times have no other parts. -/
structure InSpace (type : ItemType) (d : Duration) : Prop where
  months : -2 ^ 63 ≤ d.months ∧ d.months < 2 ^ 63
  sameSign : (0 ≤ d.months ∧ 0 ≤ d.seconds.units) ∨ (d.months ≤ 0 ∧ d.seconds.units ≤ 0)
  yearMonth : type = .yearMonthDuration → d.seconds.isZero
  dayTime : type = .dayTimeDuration → d.months = 0

/-- A duration that is read is one of its type. -/
theorem read_inSpace {d : Duration} (hr : read type s = .value d) : d.InSpace type := by
  obtain ⟨negative, months, seconds, rfl, hle, hseconds, hyearMonth, hdayTime⟩ := exists_totals hr
  have hunits := Decimal.units_nonneg hseconds
  have hmax : maxInteger = 2 ^ 63 - 1 := rfl
  cases negative with
  | false =>
    refine ⟨⟨?_, ?_⟩, .inl ⟨?_, hunits⟩, hyearMonth, fun h => ?_⟩ <;>
      simp only [Duration.signed, Bool.false_eq_true, if_false]
    · omega
    · omega
    · omega
    · exact congrArg Int.ofNat (hdayTime h)
  | true =>
    have hneg := Decimal.units_neg seconds
    refine ⟨⟨?_, ?_⟩, .inr ⟨?_, ?_⟩, hyearMonth, fun h => ?_⟩ <;>
      simp only [Duration.signed, if_true, Duration.neg]
    · omega
    · omega
    · omega
    · omega
    · rw [hdayTime h]
      rfl

/-- What is a text of a derived type is one of durations, with the same value. -/
theorem read_duration {d : Duration} (hr : read type s = .value d) : read .duration s = .value d := by
  rw [read] at hr ⊢
  generalize dropSign '-' (trim s) = signed at hr ⊢
  obtain ⟨negative, body⟩ := signed
  simp only at hr ⊢
  split at hr
  · cases hr
  · split at hr
    · cases hr
    · next c hc =>
      have hduration : c.suits .duration = true := rfl
      split at hr
      · cases hr
      · simpa only [hc, hduration, Bool.not_true, Bool.false_eq_true, if_false] using hr

end XPath.Time.Duration
