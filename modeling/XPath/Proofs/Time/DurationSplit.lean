import XPath.Proofs.Number.Numerals
import XPath.Time.Duration

/-!
# Splitting the seconds of a duration

The text of a duration splits its seconds into days, hours, minutes and seconds by rounded divisions.
Seconds of at most 28 digits are split exactly (`Duration.exists_split`).
-/

namespace XPath.Time.Duration

open XPath.Number

variable {x q : Decimal} {a k n : Nat}

/-! ## One division -/

theorem quotient_spec (hx : x.IsAmount a k) (hn : 0 < n) (hlt : n < coefficientLimit)
    (ha : a < 10 ^ 28) : (quotient x (.ofInt n)).IsAmount (a / (n * 10 ^ k)) 0 := by
  obtain ⟨q, hq, htrunc⟩ := hx.exists_div? hn hlt ha
  rw [quotient, hq]
  exact htrunc

theorem rest_spec (hx : x.IsAmount a k) (hq : q.IsAmount (a / (n * 10 ^ k)) 0)
    (hlt : n < coefficientLimit) : (rest x (.ofInt n) q).IsAmount (a % (n * 10 ^ k)) k := by
  have hdiv : n * 10 ^ k * (a / (n * 10 ^ k)) + a % (n * 10 ^ k) = a := Nat.div_add_mod ..
  have hpow : 0 < 10 ^ k := Nat.pow_pos (by decide)
  have hshift : a / (n * 10 ^ k) * n * 10 ^ k = n * 10 ^ k * (a / (n * 10 ^ k)) := by ring
  have hproduct : a / (n * 10 ^ k) * n < coefficientLimit := by
    have hle : a / (n * 10 ^ k) * n ≤ a / (n * 10 ^ k) * n * 10 ^ k :=
      Nat.le_mul_of_pos_right _ hpow
    have := hx.lt
    omega
  obtain ⟨y, hy, hamount⟩ := hq.exists_mul? (Decimal.isAmount_ofInt hlt) hproduct
  obtain ⟨z, hz, hrest⟩ := hx.exists_sub? hamount (by omega)
  rw [rest, hy, Option.bind_some, hz]
  have hmod : a - a / (n * 10 ^ k) * n * 10 ^ k = a % (n * 10 ^ k) := by omega
  rwa [hmod] at hrest

/-- A quotient with its rest, as amounts. -/
theorem exists_part (hx : x.IsAmount a k) (ha : a < 10 ^ 28) (hn : 0 < n)
    (hlt : n < coefficientLimit) :
    ∃ m r, (quotient x (.ofInt n)).IsAmount m 0 ∧
      (rest x (.ofInt n) (quotient x (.ofInt n))).IsAmount r k ∧
      n * 10 ^ k * m + r = a ∧ r < n * 10 ^ k := by
  have hquotient := quotient_spec hx hn hlt ha
  have hpow : 0 < 10 ^ k := Nat.pow_pos (by decide)
  exact ⟨_, _, hquotient, rest_spec hx hquotient hlt, Nat.div_add_mod ..,
    Nat.mod_lt _ (Nat.mul_pos hn hpow)⟩

/-- Trailing zeros of an amount are dropped. -/
theorem exists_normalize (hx : x.IsAmount a k) :
    ∃ b j, x.normalize.IsAmount b j ∧ j ≤ k ∧ b * 10 ^ (k - j) = a := by
  obtain ⟨b, j, hj, hb, hcoefficient, hscale, hneg⟩ := x.normalize_spec
  rw [hx.coefficient] at hb
  rw [hx.negative, Bool.false_and] at hneg
  by_cases ha : a = 0
  · have hb0 : b = 0 := by
      have : 0 < 10 ^ (x.scale - j) := Nat.pow_pos (by decide)
      exact (Nat.mul_eq_zero.1 (hb.trans ha)).resolve_right (by omega)
    exact ⟨0, 0, ⟨hneg, hcoefficient.trans hb0, fun h => absurd rfl h⟩, Nat.zero_le k, by simp [ha]⟩
  · rw [hx.scale ha] at hj hb
    exact ⟨b, j, ⟨hneg, hcoefficient, fun _ => hscale⟩, hj, hb⟩

/-! ## The parts of a text -/

/-! Each part is what is written in one unit; the next one is taken from the rest. -/

def dayPart (x : Decimal) : Decimal := quotient x (.ofInt 86400)
def afterDays (x : Decimal) : Decimal := rest x (.ofInt 86400) (dayPart x)
def hourPart (x : Decimal) : Decimal := quotient (afterDays x) (.ofInt 3600)
def afterHours (x : Decimal) : Decimal := rest (afterDays x) (.ofInt 3600) (hourPart x)
def minutePart (x : Decimal) : Decimal := quotient (afterHours x) (.ofInt 60)
def secondPart (x : Decimal) : Decimal := (rest (afterHours x) (.ofInt 60) (minutePart x)).normalize

/-- The amount `a / 10 ^ k` in days, hours, minutes and a rest of `b / 10 ^ j` seconds. -/
structure Split (a k days hours minutes b j : Nat) : Prop where
  days_le : days ≤ maxInteger
  hours_lt : hours < 24
  minutes_lt : minutes < 60
  places : j ≤ k
  sum : (days * 86400 + hours * 3600 + minutes * 60) * 10 ^ k + b * 10 ^ (k - j) = a

/-- Fewer than `2 ^ 63` days with at most 28 digits are split. -/
theorem exists_split (hx : x.IsAmount a k) (ha : a < 10 ^ 28) (hlt : a < 2 ^ 63 * 86400 * 10 ^ k) :
    ∃ days hours minutes b j, Split a k days hours minutes b j ∧
      (dayPart x).IsAmount days 0 ∧ (hourPart x).IsAmount hours 0 ∧
      (minutePart x).IsAmount minutes 0 ∧ (secondPart x).IsAmount b j := by
  have hpow : 0 < 10 ^ k := Nat.pow_pos (by decide)
  have hmax : maxInteger = 2 ^ 63 - 1 := rfl
  obtain ⟨days, b₁, hdays, hafterDays, hsum₁, hlt₁⟩ :=
    exists_part (n := 86400) hx ha (by decide) (by decide)
  obtain ⟨hours, b₂, hhours, hafterHours, hsum₂, hlt₂⟩ :=
    exists_part (n := 3600) hafterDays (by omega) (by decide) (by decide)
  obtain ⟨minutes, b₃, hminutes, hrest, hsum₃, -⟩ :=
    exists_part (n := 60) hafterHours (by omega) (by decide) (by decide)
  obtain ⟨b, j, hseconds, hj, hb⟩ := exists_normalize hrest
  -- A quotient is below the bound of its dividend.
  have below : ∀ {m n bound : Nat}, n * 10 ^ k * m < bound * (n * 10 ^ k) → m < bound :=
    fun h => Nat.lt_of_mul_lt_mul_right (a := _) (by rwa [Nat.mul_comm] at h)
  refine ⟨days, hours, minutes, b, j, ⟨?_, ?_, ?_, hj, ?_⟩, hdays, hhours, hminutes, hseconds⟩
  · have : days < 2 ^ 63 := below (n := 86400) (by rw [← Nat.mul_assoc]; omega)
    omega
  · exact below (n := 3600) (by omega)
  · exact below (n := 60) (by omega)
  · rw [hb, ← hsum₁, ← hsum₂, ← hsum₃]
    ring

namespace Split

variable {days hours minutes b j : Nat}

theorem eq_zero (hs : Split 0 k days hours minutes b j) :
    days = 0 ∧ hours = 0 ∧ minutes = 0 ∧ b = 0 := by
  have hpow : ∀ i, 0 < 10 ^ i := fun i => Nat.pow_pos (by decide)
  have hsum := hs.sum
  rw [Nat.add_eq_zero_iff, Nat.mul_eq_zero, Nat.mul_eq_zero] at hsum
  have htotal := hsum.1.resolve_right (hpow k).ne'
  have hb := hsum.2.resolve_right (hpow (k - j)).ne'
  omega

/-- The whole seconds and the rest at the scale of the rest are no more than the amount. -/
theorem le (hs : Split a k days hours minutes b j) :
    (days * 86400 + hours * 3600 + minutes * 60) * 10 ^ j + b ≤ a := by
  have hfit : ((days * 86400 + hours * 3600 + minutes * 60) * 10 ^ j + b) * 10 ^ (k - j) = a := by
    rw [← hs.sum, Nat.add_mul, Nat.mul_assoc, ← Nat.pow_add, Nat.add_sub_cancel' hs.places]
  rw [← hfit]
  exact Nat.le_mul_of_pos_right _ (Nat.pow_pos (by decide))

/-- A split does not change the number. -/
theorem units_eq {left : Decimal} (hs : Split a k days hours minutes b j) (hx : x.IsAmount a k)
    (hk : k ≤ maxScale) (hl : left.IsAmount b j) :
    (days * 86400 + hours * 3600 + minutes * 60 : Nat) * 10 ^ maxScale + left.units = x.units := by
  have hscale : ((10 : Int) ^ maxScale) = 10 ^ k * 10 ^ (maxScale - k) := by
    rw [← pow_add, Nat.add_sub_cancel' hk]
  have hplaces : ((10 : Int) ^ (maxScale - j)) = 10 ^ (k - j) * 10 ^ (maxScale - k) := by
    rw [← pow_add]
    congr 1
    have := hs.places
    omega
  rw [hl.units_eq, hx.units_eq, hscale, hplaces, ← hs.sum]
  push_cast
  ring

end Split

end XPath.Time.Duration
