import Mathlib.Tactic.Linarith
import Mathlib.Tactic.Ring
import XPath.Number.Decimal.Quotient

/-!
# Amounts

A decimal that is not negative is an amount of units of its last place (`IsAmount`). Sums,
differences and products of amounts are exact as long as they fit. A quotient is rounded, and a
quotient that lies just below a whole number may be rounded up to it; quotients of amounts of up to
28 digits are never that close (`IsAmount.exists_div?`).
-/

namespace XPath.Number

/-! ## Rounded quotients -/

theorem roundDiv_le {n d : Nat} (hd : 0 < d) : roundDiv .toEven n d ≤ n := by
  have hbounds := (roundDiv_bounds .toEven n hd).2
  rcases Nat.eq_zero_or_pos n with rfl | hn
  · by_contra hm
    have : d ≤ roundDiv .toEven 0 d * d := Nat.le_mul_of_pos_left d (by omega)
    omega
  · by_contra hm
    have : (n + 1) * d ≤ roundDiv .toEven n d * d := Nat.mul_le_mul_right d (by omega)
    have : n ≤ n * d := Nat.le_mul_of_pos_right n hd
    have : (n + 1) * d = n * d + d := Nat.succ_mul n d
    omega

/-- A quotient rounded to so few places that half a unit of the last one reaches no whole number. -/
theorem roundDiv_div {c d p : Nat} (hd : 0 < d) (hp : d < 2 * p) :
    roundDiv .toEven (c * p) d / p = c / d := by
  obtain ⟨hlow, hhigh⟩ := roundDiv_bounds .toEven (c * p) hd
  generalize roundDiv .toEven (c * p) d = m at hlow hhigh
  have hp0 : 0 < p := by omega
  have hdiv : d * (c / d) + c % d = c := Nat.div_add_mod c d
  have hmod : c % d < d := Nat.mod_lt c hd
  generalize c / d = q at hdiv ⊢
  have hlower : q * p ≤ m := by
    by_contra hm
    have hle : (m + 1) * d ≤ q * p * d := Nat.mul_le_mul_right d (by omega)
    have hc : d * q * p ≤ c * p := Nat.mul_le_mul_right p (by omega)
    have hexpand : (m + 1) * d = m * d + d := Nat.succ_mul m d
    have hswap : q * p * d = d * q * p := by ring
    omega
  have hupper : m < (q + 1) * p := by
    by_contra hm
    have hle : (q + 1) * p * d ≤ m * d := Nat.mul_le_mul_right d (by omega)
    have hc : (c + 1) * p ≤ d * (q + 1) * p := by
      refine Nat.mul_le_mul_right p ?_
      have : d * (q + 1) = d * q + d := Nat.mul_succ d q
      omega
    have hexpand : (c + 1) * p = c * p + p := Nat.succ_mul c p
    have hswap : (q + 1) * p * d = d * (q + 1) * p := by ring
    omega
  exact Nat.div_eq_of_lt_le hlower hupper

/-- The whole part of a rounded quotient, where the number has at most 28 digits and the quotient
is exact or has as many places as fit. -/
theorem roundDiv_whole {c d s : Nat} (hd : 0 < d) (hc : c < 10 ^ 28)
    (hs : d ∣ c * 10 ^ s ∨ s = maxScale ∨
      coefficientLimit ≤ roundDiv .toEven (c * 10 ^ (s + 1)) d ∨
      coefficientLimit * d ≤ c * 10 ^ (s + 1)) :
    roundDiv .toEven (c * 10 ^ s) d / 10 ^ s = c / d := by
  have hpow : 0 < 10 ^ s := Nat.pow_pos (by decide)
  have hlimit : coefficientLimit = 2 ^ 96 := rfl
  by_cases hp : d < 2 * 10 ^ s
  · exact roundDiv_div hd hp
  · have hnext : c * 10 ^ (s + 1) * 2 ≤ (10 * c) * d := by
      rw [Nat.pow_succ]
      calc c * (10 ^ s * 10) * 2 = (10 * c) * (2 * 10 ^ s) := by ring
        _ ≤ (10 * c) * d := Nat.mul_le_mul_left _ (by omega)
    rcases hs with hdvd | rfl | hfull | hfull
    · rw [roundDiv_of_dvd _ hd hdvd, Nat.div_div_eq_div_mul, Nat.mul_div_mul_right _ _ hpow]
    · have hsmall : roundDiv .toEven (c * 10 ^ maxScale) d < 10 ^ maxScale := by
        have hhigh := (roundDiv_bounds .toEven (c * 10 ^ maxScale) hd).2
        rw [show maxScale = 28 from rfl] at *
        by_contra hm
        have hle : 10 ^ 28 * d ≤ roundDiv .toEven (c * 10 ^ 28) d * d :=
          Nat.mul_le_mul_right d (by omega)
        omega
      have hdc : c < d := by
        rw [show maxScale = 28 from rfl] at hp
        omega
      rw [Nat.div_eq_of_lt hsmall, Nat.div_eq_of_lt hdc]
    · have hhigh := (roundDiv_bounds .toEven (c * 10 ^ (s + 1)) hd).2
      have hle : coefficientLimit * d ≤ roundDiv .toEven (c * 10 ^ (s + 1)) d * d :=
        Nat.mul_le_mul_right d hfull
      have hd' : 2 * coefficientLimit * d ≤ (10 * c + 1) * d := by
        have : (10 * c + 1) * d = 10 * c * d + d := Nat.succ_mul _ d
        have : 2 * coefficientLimit * d = 2 * (coefficientLimit * d) := Nat.mul_assoc ..
        omega
      have := Nat.le_of_mul_le_mul_right hd' hd
      omega
    · have hd' : 2 * coefficientLimit * d ≤ 10 * c * d := by
        have : 2 * coefficientLimit * d = 2 * (coefficientLimit * d) := Nat.mul_assoc ..
        omega
      have := Nat.le_of_mul_le_mul_right hd' hd
      omega

namespace Decimal

/-! ## Decimals of parts -/

theorem ofParts?_of_lt {negative : Bool} {c s : Nat} (hc : c < coefficientLimit)
    (hs : s ≤ maxScale) : ofParts? negative c s = some ⟨negative && c ≠ 0, c, s, hc, hs⟩ :=
  dif_pos ⟨hc, hs⟩

theorem ofParts?_eq_some {negative : Bool} {c s : Nat} {d : Decimal}
    (hd : ofParts? negative c s = some d) :
    d.negative = (negative && decide (c ≠ 0)) ∧ d.coefficient = c ∧ d.scale = s := by
  rw [ofParts?] at hd
  split at hd
  case isTrue =>
    cases hd
    exact ⟨rfl, rfl, rfl⟩
  case isFalse => cases hd

theorem ofInt_natCast {n : Nat} (hn : n < coefficientLimit) :
    ofInt n = ⟨false, n, 0, hn, by decide⟩ := by
  have hneg : decide ((n : Int) < 0) = false := decide_eq_false (by omega)
  rw [ofInt, ofInt?, Int.natAbs_natCast, hneg, ofParts?_of_lt hn (by decide)]
  rfl

/-! ## Fitting a quotient -/

variable {negative : Bool} {num den s : Nat}

/-- Where the coefficient fits at the largest scale, that scale is taken. -/
theorem fit?_of_lt (hs : s ≤ maxScale)
    (hc : roundDiv .toEven (num * 10 ^ s) den < coefficientLimit) :
    fit? negative num den s = ofParts? negative (roundDiv .toEven (num * 10 ^ s) den) s := by
  cases s with
  | zero => simp [fit?]
  | succ s =>
    rw [fit?]
    simp only [Nat.pow_eq]
    rw [ofParts?_of_lt hc hs]

theorem fit?_exact {n : Nat} (hs : s ≤ maxScale) (hn : n < coefficientLimit) :
    fit? negative n (10 ^ s) s = ofParts? negative n s := by
  have hpow : 0 < 10 ^ s := Nat.pow_pos (by decide)
  have hround : roundDiv .toEven (n * 10 ^ s) (10 ^ s) = n := by
    rw [roundDiv_of_dvd _ hpow (Nat.dvd_mul_left _ _), Nat.mul_div_cancel n hpow]
  rw [fit?_of_lt hs (by rwa [hround]), hround]

/-- Some scale fits, and the next larger one does not. -/
theorem exists_fit? (negative : Bool) (s : Nat) (hs : s ≤ maxScale)
    (hc : roundDiv .toEven num den < coefficientLimit) :
    ∃ d s', fit? negative num den s = some d ∧ s' ≤ s ∧
      ofParts? negative (roundDiv .toEven (num * 10 ^ s') den) s' = some d ∧
      (s' = s ∨ coefficientLimit ≤ roundDiv .toEven (num * 10 ^ (s' + 1)) den) := by
  induction s with
  | zero =>
    have hfit : ofParts? negative (roundDiv .toEven (num * 10 ^ 0) den) 0 = _ :=
      ofParts?_of_lt (by simpa using hc) hs
    refine ⟨_, 0, ?_, Nat.le_refl 0, hfit, .inl rfl⟩
    rw [← hfit, fit?, Nat.pow_zero, Nat.mul_one]
  | succ s ih =>
    by_cases hlt : roundDiv .toEven (num * 10 ^ (s + 1)) den < coefficientLimit
    · have hfit : fit? negative num den (s + 1) = _ := fit?_of_lt hs hlt
      rw [ofParts?_of_lt hlt hs] at hfit
      exact ⟨_, s + 1, hfit, Nat.le_refl _, ofParts?_of_lt hlt hs, .inl rfl⟩
    · obtain ⟨d, s', hd, hs', hparts, hlarger⟩ := ih (by omega)
      have hnone : ofParts? negative (roundDiv .toEven (num * 10 ^ (s + 1)) den) (s + 1) = none :=
        dif_neg fun h => hlt h.1
      refine ⟨d, s', ?_, by omega, hparts, .inr ?_⟩
      · rw [fit?]
        simp only [Nat.pow_eq]
        rw [hnone]
        exact hd
      · rcases hlarger with rfl | hlarger
        · exact Nat.not_lt.1 hlt
        · exact hlarger

theorem room_eq_zero {c bound : Nat} (hr : room c bound = 0) :
    bound = 0 ∨ coefficientLimit ≤ c * 10 := by
  induction bound with
  | zero => exact .inl rfl
  | succ bound ih =>
    rw [room] at hr
    split at hr
    case isTrue => omega
    case isFalse h =>
      right
      rcases ih hr with rfl | hlimit
      · simpa using h
      · exact hlimit

/-- A quotient is developed until it is exact, no place is left or the coefficient is full. -/
theorem exists_places (num den left : Nat) :
    ∃ p, p + unusedPlaces num den left = left ∧
      (den ∣ num * 10 ^ p ∨ unusedPlaces num den left = 0 ∨
        coefficientLimit ≤ num * 10 ^ p / den * 10) := by
  fun_induction unusedPlaces num den left with
  | case1 num left places hp ih =>
    have hle : places ≤ left := nextPlaces_le num den left
    obtain ⟨p, hsum, hend⟩ := ih
    have hpow : num * Nat.pow 10 places * 10 ^ p = num * 10 ^ (places + p) := by
      rw [Nat.pow_eq, Nat.mul_assoc, Nat.pow_add]
    rw [hpow] at hend
    exact ⟨places + p, by omega, hend⟩
  | case2 num left places hp =>
    refine ⟨0, Nat.zero_add _, ?_⟩
    rw [Nat.pow_zero, Nat.mul_one]
    have hnext : nextPlaces num den left = 0 := by
      show places = 0
      omega
    rw [nextPlaces] at hnext
    split at hnext
    case isTrue h => exact .inl (Nat.dvd_of_mod_eq_zero h)
    case isFalse =>
      rcases room_eq_zero hnext with hmin | hlimit
      · exact .inr (.inl (by omega))
      · exact .inr (.inr hlimit)

/-- A quotient that was developed until the coefficient is full has no room for another place. -/
theorem limit_le_of_full {a n p : Nat} (k : Nat)
    (hfull : coefficientLimit ≤ a * 10 ^ p / n * 10) :
    coefficientLimit * (n * 10 ^ k) ≤ a * 10 ^ (p + k + 1) := by
  have hle : a * 10 ^ p / n * n ≤ a * 10 ^ p := Nat.div_mul_le_self _ _
  calc coefficientLimit * (n * 10 ^ k)
      ≤ a * 10 ^ p / n * 10 * (n * 10 ^ k) := Nat.mul_le_mul_right _ hfull
    _ = a * 10 ^ p / n * n * (10 ^ k * 10) := by ring
    _ ≤ a * 10 ^ p * (10 ^ k * 10) := Nat.mul_le_mul_right _ hle
    _ = a * 10 ^ (p + k + 1) := by rw [Nat.pow_succ, Nat.pow_add]; ring

/-- The decimal that a quotient is rounded to has the whole part of the quotient. -/
theorem exists_fit?_whole {a n k : Nat} (hn : 0 < n) (ha : a < 10 ^ 28) (hk : k ≤ maxScale) :
    ∃ d, fit? false a (n * 10 ^ k) (maxScale - unusedPlaces a n (maxScale + 0 - k)) = some d ∧
      d.negative = false ∧ d.coefficient / 10 ^ d.scale = a / (n * 10 ^ k) := by
  have hd : 0 < n * 10 ^ k := Nat.mul_pos hn (Nat.pow_pos (by decide))
  have hlimit : coefficientLimit = 2 ^ 96 := rfl
  obtain ⟨p, hsum, hend⟩ := exists_places a n (maxScale + 0 - k)
  generalize unusedPlaces a n (maxScale + 0 - k) = unused at hsum hend
  obtain ⟨d, s, hfit, -, hparts, hlarger⟩ := exists_fit? false (maxScale - unused) (by omega)
    (Nat.lt_of_le_of_lt (roundDiv_le hd) (show a < coefficientLimit by omega))
  obtain ⟨hneg, hcoefficient, hscale⟩ := ofParts?_eq_some hparts
  refine ⟨d, hfit, hneg, ?_⟩
  rw [hcoefficient, hscale]
  refine roundDiv_whole hd ha ?_
  rcases hlarger with rfl | hlarger
  · have hplaces : maxScale - unused = p + k := by omega
    rcases hend with hdvd | hzero | hfull
    · left
      rw [hplaces, Nat.pow_add, ← Nat.mul_assoc]
      exact Nat.mul_dvd_mul_right hdvd _
    · right; left
      omega
    · right; right; right
      rw [hplaces]
      exact limit_le_of_full k hfull
  · exact .inr (.inr (.inl hlarger))

/-! ## Amounts -/

/-- The decimal is `n / 10 ^ k`; if it is not zero it is written with `k` places. -/
structure IsAmount (x : Decimal) (n k : Nat) : Prop where
  negative : x.negative = false
  coefficient : x.coefficient = n
  scale : n ≠ 0 → x.scale = k

variable {x y : Decimal} {a b n k : Nat}

theorem isAmount_zero (k : Nat) : zero.IsAmount 0 k := ⟨rfl, rfl, fun h => absurd rfl h⟩

theorem isAmount_ofInt (hn : n < coefficientLimit) : (ofInt n).IsAmount n 0 := by
  rw [ofInt_natCast hn]
  exact ⟨rfl, rfl, fun _ => rfl⟩

theorem isAmount_ofParts (hd : ofParts? false n k = some x) : x.IsAmount n k := by
  obtain ⟨hneg, hc, hs⟩ := ofParts?_eq_some hd
  exact ⟨hneg, hc, fun _ => hs⟩

namespace IsAmount

theorem lt (hx : x.IsAmount n k) : n < coefficientLimit := hx.coefficient ▸ x.coefficient_lt

theorem scale_le (hx : x.IsAmount n k) (hn : n ≠ 0) : k ≤ maxScale := hx.scale hn ▸ x.scale_le

theorem isZero_iff (hx : x.IsAmount n k) : x.isZero ↔ n = 0 := by
  rw [isZero, hx.coefficient, decide_eq_true_iff]

theorem units_eq (hx : x.IsAmount n k) : x.units = n * 10 ^ (maxScale - k) := by
  rw [units, signed, hx.negative, hx.coefficient]
  rcases Nat.eq_zero_or_pos n with rfl | hn
  · simp
  · rw [hx.scale (by omega)]
    simp

/-- A sum of amounts is exact. -/
theorem exists_add? (hx : x.IsAmount a 0) (hy : y.IsAmount b k)
    (hlt : a * 10 ^ k + b < coefficientLimit) :
    ∃ z, x.add? y = some z ∧ z.negative = false ∧ z.units = x.units + y.units := by
  rw [Decimal.add?]
  by_cases ha : a = 0
  · refine ⟨y, if_pos (hx.isZero_iff.2 ha), hy.negative, ?_⟩
    rw [hx.units_eq, ha]
    simp
  · by_cases hb : b = 0
    · refine ⟨x, ?_, hx.negative, ?_⟩
      · rw [if_neg (mt hx.isZero_iff.1 ha), if_pos (hy.isZero_iff.2 hb)]
      · rw [hy.units_eq, hb]
        simp
    · have hk := hy.scale_le hb
      rw [if_neg (mt hx.isZero_iff.1 ha), if_neg (mt hy.isZero_iff.1 hb), hx.scale ha, hy.scale hb,
        signed, signed, hx.negative, hy.negative, hx.coefficient, hy.coefficient]
      have hsum : (a : Int) * (10 ^ k : Nat) + (b : Int) * (10 ^ 0 : Nat) =
          ((a * 10 ^ k + b : Nat) : Int) := by
        push_cast
        ring
      have hneg : decide (((a * 10 ^ k + b : Nat) : Int) < 0) = false := decide_eq_false (by omega)
      simp only [Nat.zero_max, Nat.sub_zero, Nat.sub_self, Bool.false_eq_true, if_false, Nat.pow_eq]
      rw [hsum, hneg, Int.natAbs_natCast, fit?_exact hk hlt, ofParts?_of_lt hlt hk]
      refine ⟨_, rfl, rfl, ?_⟩
      have hpow : 10 ^ maxScale = 10 ^ k * 10 ^ (maxScale - k) := by
        rw [← Nat.pow_add]
        congr 1
        omega
      rw [hx.units_eq, hy.units_eq, Nat.sub_zero]
      simp only [units, signed, Bool.false_and, Bool.false_eq_true, if_false, Nat.pow_eq]
      have hcast : ((10 : Int) ^ maxScale) = 10 ^ k * 10 ^ (maxScale - k) := by exact_mod_cast hpow
      rw [hcast]
      push_cast
      ring

/-- A difference of amounts is exact. -/
theorem exists_sub? (hx : x.IsAmount a k) (hy : y.IsAmount b 0) (hle : b * 10 ^ k ≤ a) :
    ∃ z, x.sub? y = some z ∧ z.IsAmount (a - b * 10 ^ k) k := by
  have hpow : 0 < 10 ^ k := Nat.pow_pos (by decide)
  rw [Decimal.sub?]
  by_cases ha : a = 0
  · have hb : b = 0 := by
      by_contra hb
      have : 1 * 1 ≤ b * 10 ^ k := Nat.mul_le_mul (by omega) hpow
      omega
    rw [if_pos (hx.isZero_iff.2 ha), if_pos (hy.isZero_iff.2 hb)]
    refine ⟨y, rfl, hy.negative, by rw [hy.coefficient, hb, ha]; simp, fun h => ?_⟩
    exact absurd (by omega) h
  · have hk := hx.scale_le ha
    rw [if_neg (mt hx.isZero_iff.1 ha), Decimal.add?, if_neg (mt hx.isZero_iff.1 ha)]
    by_cases hb : b = 0
    · have hzero : (-y).isZero := hy.isZero_iff.2 hb
      rw [if_pos hzero]
      refine ⟨x, rfl, hx.negative, by rw [hx.coefficient, hb]; simp, fun _ => hx.scale ha⟩
    · have hnonzero : ¬(-y).isZero := mt hy.isZero_iff.1 hb
      have hsigned : (-y).signed = -(b : Int) := by
        show (if !y.negative then -(y.coefficient : Int) else y.coefficient) = _
        rw [hy.negative, hy.coefficient]
        rfl
      have hscale : (-y).scale = 0 := hy.scale hb
      have hlt : a - b * 10 ^ k < coefficientLimit := by
        have := hx.lt
        omega
      have hdiff : (a : Int) * (10 ^ 0 : Nat) + -(b : Int) * (10 ^ k : Nat) =
          ((a - b * 10 ^ k : Nat) : Int) := by
        push_cast [hle]
        ring
      have hneg : decide (((a - b * 10 ^ k : Nat) : Int) < 0) = false := decide_eq_false (by omega)
      rw [if_neg hnonzero, hx.scale ha, hscale, hsigned, signed, hx.negative, hx.coefficient]
      simp only [Nat.max_zero, Nat.sub_zero, Nat.sub_self, Bool.false_eq_true, if_false, Nat.pow_eq]
      rw [hdiff, hneg, Int.natAbs_natCast, fit?_exact hk hlt]
      exact ⟨_, ofParts?_of_lt hlt hk, isAmount_ofParts (ofParts?_of_lt hlt hk)⟩

/-- A product of whole amounts is exact. -/
theorem exists_mul? (hx : x.IsAmount a 0) (hy : y.IsAmount b 0) (hlt : a * b < coefficientLimit) :
    ∃ z, x.mul? y = some z ∧ z.IsAmount (a * b) 0 := by
  rw [Decimal.mul?]
  by_cases hzero : a = 0 ∨ b = 0
  · have hab : a * b = 0 := Nat.mul_eq_zero.2 hzero
    have hz : (x.isZero || y.isZero) = true := by
      rw [Bool.or_eq_true, hx.isZero_iff, hy.isZero_iff]
      exact hzero
    refine ⟨zero, ?_, ?_⟩
    · simp only [hz, if_true]
    · rw [hab]
      exact isAmount_zero 0
  · obtain ⟨ha, hb⟩ := not_or.1 hzero
    have hz : (x.isZero || y.isZero) = false := by
      rw [Bool.or_eq_false_iff, Bool.eq_false_iff, Bool.eq_false_iff]
      exact ⟨mt hx.isZero_iff.1 ha, mt hy.isZero_iff.1 hb⟩
    have hfit : fit? false (a * b) (Nat.pow 10 (0 + 0)) (min (0 + 0) maxScale) =
        some ⟨false, a * b, 0, hlt, by decide⟩ := (fit?_exact (s := 0) (by decide) hlt).trans
      (ofParts?_of_lt hlt (by decide))
    simp only [hz, hx.scale ha, hy.scale hb, hx.negative, hy.negative, hx.coefficient,
      hy.coefficient, Bool.false_eq_true, if_false, bne_self_eq_false, hfit]
    refine ⟨⟨false, a * b, 0, hlt, by decide⟩, ?_, rfl, rfl, fun _ => rfl⟩
    split
    · rfl
    · rfl

/-! ## Whole quotients -/

theorem units_natAbs (x : Decimal) : x.units.natAbs = x.coefficient * 10 ^ (maxScale - x.scale) := by
  rw [units, signed]
  split <;> simp [Int.natAbs_mul]

/-- The whole part depends on the number alone. -/
theorem trunc_coefficient (x : Decimal) :
    x.trunc.coefficient = x.units.natAbs / 10 ^ maxScale := by
  have hpow : 10 ^ maxScale = 10 ^ x.scale * 10 ^ (maxScale - x.scale) := by
    rw [← Nat.pow_add]
    congr 1
    have := x.scale_le
    omega
  rw [units_natAbs, hpow, Nat.mul_div_mul_right _ _ (Nat.pow_pos (by decide))]
  rfl

theorem negative_dropZeroGroups (x : Decimal) : x.dropZeroGroups.negative = x.negative := by
  have drop (y : Decimal) (n : Nat) : (y.dropZeros n).negative = y.negative := by
    rw [dropZeros]
    split <;> rfl
  have eight (y : Decimal) : y.dropEightZeros.negative = y.negative := by
    rw [dropEightZeros]
    split
    · exact drop y 8
    · rfl
  simp only [dropZeroGroups, drop, eight]

/-- The whole part of a quotient of an amount of at most 28 digits is exact. -/
theorem exists_div? (hx : x.IsAmount a k) (hn : 0 < n) (hlt : n < coefficientLimit)
    (ha : a < 10 ^ 28) :
    ∃ q, x.div? (ofInt n) = some q ∧ q.trunc.IsAmount (a / (n * 10 ^ k)) 0 := by
  have hy : ¬(ofInt n).isZero := by
    rw [(isAmount_ofInt hlt).isZero_iff]
    omega
  rw [Decimal.div?, if_neg hy]
  by_cases ha0 : a = 0
  · refine ⟨zero, if_pos (hx.isZero_iff.2 ha0), rfl, ?_, fun _ => rfl⟩
    rw [ha0, Nat.zero_div]
    rfl
  · obtain ⟨d, hfit, hneg, hwhole⟩ := exists_fit?_whole hn ha (hx.scale_le ha0)
    have htrunc : ∀ q : Decimal, q.negative = false → q.units = d.units →
        q.trunc.IsAmount (a / (n * 10 ^ k)) 0 := by
      intro q hq hunits
      refine ⟨hq, ?_, fun _ => rfl⟩
      rw [trunc_coefficient, hunits, ← trunc_coefficient, ← hwhole]
      rfl
    rw [if_neg (mt hx.isZero_iff.1 ha0)]
    simp only [ofInt_natCast hlt, hx.scale ha0, hx.negative, hx.coefficient, Nat.pow_eq,
      Nat.pow_zero, Nat.mul_one, bne_self_eq_false, hfit]
    split
    · exact ⟨d, rfl, htrunc d hneg rfl⟩
    · exact ⟨d.dropZeroGroups, rfl, htrunc _ ((negative_dropZeroGroups d).trans hneg)
        (units_dropZeroGroups d)⟩

end IsAmount

end Decimal

end XPath.Number
