import XPath.Proofs.Number.Capacity
import XPath.Proofs.Number.Checked
import XPath.Proofs.Time.DurationReading

/-!
# Durations of bounded numbers

The reader of durations once more, with every number in its range: components and months have 64 bits, and
the seconds are added up component by component as decimals. A component or a total of months that is too
large is an error of the text; a product or a sum of seconds, or a negation, that leaves its range has no
outcome. The products and the sums of the whole components always fit. The sum with the seconds proper does
unless it reaches half a second more than the largest decimal (`parse_run_eq_none_iff`), and short of
that every text is read as the one reader reads it or is malformed (`parse_checked`).
-/

namespace XPath.Time.Duration

open XPath.Text XPath.Number

namespace Bounded

open XPath.Checked

/-! ## The reader -/

/-- A number that may be absent, in place of which there is an error. -/
def demand {α : Type} (e : Error) : Option α → Checked α
  | some a => pure a
  | none => throw e

/-- A number that is not asked whether it is there. -/
def unchecked {α : Type} : Option α → Checked α
  | some a => pure a
  | none => fault

def count (e : Error) : Option (List Char) → Checked Int
  | none => pure 0
  | some digits => demand e (signed? (digitsValue digits))

def totalMonths (e : Error) (c : Components) : Checked Int := do
  let years ← count e c.years
  let dozens ← demand e (signed? (years * 12))
  let months ← count e c.months
  demand e (signed? (dozens + months))

def fraction? : Option (List Char) → Option Decimal
  | none => some .zero
  | some digits => (Numeral.read? digits).bind Decimal.ofNumeral?

/-- The seconds of a whole component. -/
def component (e : Error) (digits : Option (List Char)) (unit : Int) : Checked Decimal := do
  let n ← count e digits
  unchecked ((Decimal.ofInt n).mul? (.ofInt unit))

def totalSeconds (e : Error) (c : Components) : Checked Decimal := do
  let days ← component e c.days 86400
  let hours ← component e c.hours 3600
  let sum ← unchecked (days.add? hours)
  let minutes ← component e c.minutes 60
  let sum ← unchecked (sum.add? minutes)
  let seconds ← demand e (fraction? c.seconds)
  unchecked (sum.add? seconds)

def neg (d : Duration) : Checked Duration := do
  let months ← unchecked (signed? (-d.months))
  return ⟨months, -d.seconds⟩

def parse (type : ItemType) (text : String) : Checked Duration :=
  let e := malformed type.label text
  let (negative, body) := dropSign '-' (trim text.toList)
  match dropSign 'P' body with
  | (false, _) => throw e
  | (true, body) =>
    match components? body with
    | none => throw e
    | some c =>
      if !c.suits type then throw e
      else do
        let months ← totalMonths e c
        let seconds ← totalSeconds e c
        if negative then neg ⟨months, seconds⟩ else return ⟨months, seconds⟩

/-! ## Its totals -/

variable {α β : Type} {e : Error} {c : Components} {digits : Option (List Char)}

theorem demand_some (a : α) : demand e (some a) = pure a := rfl

theorem demand_none : demand e (none : Option α) = throw e := rfl

theorem throw_bind (f : α → Checked β) : (throw e : Checked α) >>= f = throw e := rfl

theorem le_maxInteger_iff {n : Nat} : n ≤ maxInteger ↔ -2 ^ 63 ≤ (n : Int) ∧ (n : Int) < 2 ^ 63 := by
  have : maxInteger = 2 ^ 63 - 1 := rfl
  omega

theorem demand_signed? (n : Nat) :
    demand e (signed? n) = demand e (if n ≤ maxInteger then some (n : Int) else none) := by
  split
  case isTrue h => rw [signed?_eq_some.2 ⟨le_maxInteger_iff.1 h, rfl⟩]
  case isFalse h => rw [signed?_eq_none.2 (mt le_maxInteger_iff.2 h)]

theorem count_eq : count e digits = demand e ((count? digits).map fun n : Nat => (n : Int)) := by
  cases digits with
  | none => rfl
  | some digits =>
    rw [count, demand_signed?, count?]
    split <;> rfl

theorem count?_lt {n : Nat} (hn : count? digits = some n) : n < 2 ^ 63 := by
  have hmax : maxInteger = 2 ^ 63 - 1 := rfl
  cases digits with
  | none =>
    cases hn
    decide
  | some digits =>
    obtain ⟨hle, hn⟩ := Option.ite_none_right_eq_some.1 hn
    obtain rfl := Option.some.inj hn
    omega

theorem totalMonths_eq :
    totalMonths e c = demand e (c.totalMonths?.map fun n : Nat => (n : Int)) := by
  rw [totalMonths, Components.totalMonths?, count_eq, count_eq]
  cases count? c.years with
  | none => rfl
  | some years =>
    have hdozens : demand e (signed? ((years : Int) * 12)) = _ := demand_signed? (years * 12)
    simp only [Option.map_some, demand_some, pure_bind, hdozens, Option.bind_eq_bind, Option.bind_some]
    cases count? c.months with
    | none => split <;> rfl
    | some months =>
      have hsum : demand e (signed? (((years * 12 : Nat) : Int) + (months : Int))) = _ :=
        demand_signed? (years * 12 + months)
      simp only [Option.map_some, demand_some, pure_bind, Option.bind_some]
      split
      case isTrue =>
        rw [demand_some, pure_bind, hsum]
        split <;> rfl
      case isFalse h => rw [demand_none, throw_bind, if_neg (by omega), Option.map_none, demand_none]

/-- The unit of a component times a number of 64 bits is a decimal. -/
theorem component_eq (unit : Nat) (hunit : unit ≤ 86400) :
    component e digits unit =
      demand e ((count? digits).map fun n : Nat => Decimal.ofInt (n * unit : Nat)) := by
  have hlimit : coefficientLimit = 2 ^ 96 := rfl
  rw [component, count_eq]
  cases hn : count? digits with
  | none => rfl
  | some n =>
    have hlt := count?_lt hn
    have hproduct : n * unit ≤ 2 ^ 63 * 86400 := Nat.mul_le_mul hlt.le hunit
    have hmul := Decimal.ofInt_mul? (m := n) (n := unit) (by omega) (by omega) (by omega)
    simp only [Option.map_some, demand_some, pure_bind, hmul, unchecked]

/-- Only the last sum may have no outcome. -/
theorem totalSeconds_eq :
    totalSeconds e c = match c.secondParts? with
      | none => throw e
      | some (whole, fraction) => unchecked (whole.add? fraction) := by
  have hlimit : coefficientLimit = 2 ^ 96 := rfl
  have hdays : component e c.days 86400 = _ := component_eq 86400 (by decide)
  have hhours : component e c.hours 3600 = _ := component_eq 3600 (by decide)
  have hminutes : component e c.minutes 60 = _ := component_eq 60 (by decide)
  rw [totalSeconds, Components.secondParts?, hdays, hhours, hminutes]
  cases hd : count? c.days with
  | none => rfl
  | some days =>
    cases hh : count? c.hours with
    | none => rfl
    | some hours =>
      have hlt := count?_lt hd
      have hlt' := count?_lt hh
      have hsum := Decimal.ofInt_add? (m := days * 86400) (n := hours * 3600) (by omega)
      simp only [Option.map_some, demand_some, pure_bind, hsum, unchecked]
      cases hm : count? c.minutes with
      | none => rfl
      | some minutes =>
        have hlt'' := count?_lt hm
        have hwhole := Decimal.ofInt_add? (m := days * 86400 + hours * 3600) (n := minutes * 60)
          (by omega)
        simp only [Option.map_some, demand_some, pure_bind, hwhole, fraction?]
        cases c.seconds with
        | none => rfl
        | some digits =>
          simp only [Option.bind_eq_bind, Option.bind_some]
          cases (Numeral.read? digits).bind Decimal.ofNumeral? <;> rfl

/-! ## Its outcomes -/

/-- The months of 64 bits are not the one number whose negation has more. -/
theorem neg_eq {months : Nat} (hm : months ≤ maxInteger) (seconds : Decimal) :
    neg ⟨months, seconds⟩ = pure (Duration.neg ⟨months, seconds⟩) := by
  have hmax : maxInteger = 2 ^ 63 - 1 := rfl
  have hsigned : signed? (-(months : Int)) = some (-(months : Int)) := signed?_eq_some.2 ⟨by omega, rfl⟩
  rw [neg, hsigned]
  rfl

/-- What becomes of a text, with an overflow as no outcome. -/
theorem parse_run (type : ItemType) (text : String) :
    (parse type text).run = match read type text.toList with
      | .value d => some (.ok d)
      | .malformed => some (.error (malformed type.label text))
      | .tooLarge => none := by
  rw [parse, read]
  generalize dropSign '-' (trim text.toList) = signed
  obtain ⟨negative, body⟩ := signed
  dsimp only
  generalize dropSign 'P' body = unsigned
  obtain ⟨_ | _, body⟩ := unsigned
  · rfl
  dsimp only
  cases components? body with
  | none => rfl
  | some c =>
    dsimp only
    split
    · rfl
    rw [totalMonths_eq, totalSeconds_eq]
    cases hmonths : c.totalMonths? with
    | none => rfl
    | some months =>
      simp only [Option.map_some, demand_some, pure_bind]
      cases c.secondParts? with
      | none => rfl
      | some parts =>
        obtain ⟨whole, fraction⟩ := parts
        dsimp only
        cases whole.add? fraction with
        | none => rfl
        | some seconds =>
          simp only [unchecked, pure_bind, neg_eq (totalMonths?_le hmonths)]
          cases negative <;> rfl

end Bounded

/-! ## Overflow -/

/-- The months, the seconds of the whole components and the seconds proper that a text states without
its sign, if it is of the type and each of them fits. -/
def totals? (type : ItemType) (s : List Char) : Option (Nat × Decimal × Decimal) :=
  match dropSign 'P' (dropSign '-' (trim s)).2 with
  | (false, _) => none
  | (true, body) => do
    let c ← components? body
    if !c.suits type then none
    let months ← c.totalMonths?
    let (whole, fraction) ← c.secondParts?
    return (months, whole, fraction)

/-- The stated seconds add up to half a second more than the largest decimal, or to more than that. -/
def Overflows (type : ItemType) (s : List Char) : Prop :=
  ∃ totals ∈ totals? type s,
    (2 * coefficientLimit - 1) * 10 ^ maxScale ≤ 2 * (totals.2.1.units + totals.2.2.units)

theorem add?_eq_none_iff_units {x y : Decimal} (hx : x.negative = false) (hy : y.negative = false) :
    x.add? y = none ↔ (2 * coefficientLimit - 1) * 10 ^ maxScale ≤ 2 * (x.units + y.units) := by
  have hx := Decimal.units_nonneg hx
  have hy := Decimal.units_nonneg hy
  have hcast : (((2 * coefficientLimit - 1) * 10 ^ maxScale : Nat) : Int) =
      (2 * coefficientLimit - 1) * 10 ^ maxScale := by decide
  rw [Decimal.add?_eq_none_iff, ← hcast]
  omega

theorem read_eq_tooLarge_iff {type : ItemType} {s : List Char} :
    read type s = .tooLarge ↔ Overflows type s := by
  rw [Overflows, read, totals?]
  generalize dropSign '-' (trim s) = signed
  obtain ⟨negative, body⟩ := signed
  dsimp only
  generalize dropSign 'P' body = unsigned
  obtain ⟨_ | _, body⟩ := unsigned
  · simp
  dsimp only
  cases hc : components? body with
  | none => simp
  | some c =>
    simp only [Option.bind_eq_bind, Option.bind_some]
    split
    · simp
    cases c.totalMonths? with
    | none => simp
    | some months =>
      cases hparts : c.secondParts? with
      | none => simp
      | some parts =>
        obtain ⟨whole, fraction⟩ := parts
        obtain ⟨hwhole, hfraction⟩ := secondParts?_negative hc hparts
        have hnone := add?_eq_none_iff_units hwhole hfraction
        simp only [Option.bind_some, Option.pure_def, Option.mem_def, Option.some.injEq, exists_eq_left',
          ← hnone]
        cases whole.add? fraction <;> simp

theorem parse_run_eq_none_iff {type : ItemType} {text : String} :
    (Bounded.parse type text).run = none ↔ Overflows type text.toList := by
  rw [Bounded.parse_run, ← read_eq_tooLarge_iff]
  cases read type text.toList <;> simp

/-- Short of an overflow of the last sum nothing overflows on the way to a duration, and a text without
one is malformed. -/
theorem parse_checked (type : ItemType) (text : String) (h : ¬Overflows type text.toList) :
    (Bounded.parse type text).run = some (Duration.parse type text) ∧
      ∀ e, Duration.parse type text = .error e → e.code = .FORG0001 := by
  rw [← read_eq_tooLarge_iff] at h
  rw [Bounded.parse_run, Duration.parse]
  cases hread : read type text.toList with
  | value d => exact ⟨rfl, nofun⟩
  | malformed =>
    refine ⟨rfl, ?_⟩
    rintro e ⟨⟩
    rfl
  | tooLarge => exact absurd hread h

/-- The largest months and the largest seconds. -/
theorem parse_largest :
    ¬Overflows .duration "-P768614336404564650Y7MT79228162514264337593543950335S".toList ∧
      (Bounded.parse .duration "-P768614336404564650Y7MT79228162514264337593543950335S").run =
        some (.ok ⟨-9223372036854775807, -.ofInt 79228162514264337593543950335⟩) := by
  have htotals : totals? .duration "-P768614336404564650Y7MT79228162514264337593543950335S".toList =
      some (9223372036854775807, .zero, .ofInt 79228162514264337593543950335) := by decide +kernel
  have h : ¬Overflows .duration "-P768614336404564650Y7MT79228162514264337593543950335S".toList := by
    rintro ⟨totals, hmem, hle⟩
    obtain rfl := Option.some.inj (htotals.symm.trans hmem)
    exact absurd hle (by decide +kernel)
  refine ⟨h, (parse_checked _ _ h).1.trans ?_⟩
  decide +kernel

/-- A day in front of the largest seconds. -/
theorem parse_overflow :
    (Bounded.parse .dayTimeDuration "P1DT79228162514264337593543950335S").run = none ∧
      ∃ e, Duration.parse .dayTimeDuration "P1DT79228162514264337593543950335S" = .error e ∧
        e.code ≠ .FORG0001 := by
  have hread : read .dayTimeDuration "P1DT79228162514264337593543950335S".toList = .tooLarge := by
    decide +kernel
  refine ⟨parse_run_eq_none_iff.2 (read_eq_tooLarge_iff.1 hread), overflow, ?_, by decide⟩
  rw [Duration.parse, hread]

end XPath.Time.Duration
