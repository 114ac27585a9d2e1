import Mathlib.Data.Rat.Floor
import XPath.Proofs.Number.Exactness
import XPath.Proofs.Number.Numerals

/-!
# Division with a remainder

A quotient of decimals is rounded to the places that fit before it is truncated. Rounding carries it
to the next whole number if it lies just below one (`JustBelow`); any other quotient keeps its whole
part (`Decimal.truncate_div?`). A remainder is not rounded: it is what the whole quotients leave
(`Decimal.exists_rem?`), as long as the long division of the coefficients never begins with the
leading word of its divisor.
-/

namespace XPath.Number

variable {num den m n d s t c bound : Nat}

/-! ## Whole parts -/

/-- The integer part of a number, toward zero. -/
def truncated (q : ℚ) : Int := if q < 0 then ⌈q⌉ else ⌊q⌋

theorem truncated_div (m n : Int) : truncated ((m : ℚ) / n) = m.tdiv n := by
  have positive (m : Int) (k : Nat) : truncated ((m : ℚ) / k) = m.tdiv k := by
    have hk : (0 : ℚ) ≤ k := Nat.cast_nonneg k
    rw [truncated, Rat.ceil_intCast_div_natCast, Rat.floor_intCast_div_natCast]
    rcases lt_or_ge m 0 with hm | hm
    · have hneg : m.tdiv k = -(-m / k) := by
        rw [← Int.tdiv_eq_ediv_of_nonneg (by omega), Int.neg_tdiv, Int.neg_neg]
      rw [hneg]
      split_ifs with hq
      · rfl
      · have hzero : (m : ℚ) / k = 0 :=
          (div_nonpos_of_nonpos_of_nonneg (Int.cast_nonpos.2 hm.le) hk).antisymm (not_lt.1 hq)
        have hk0 : k = 0 := by
          have := (div_eq_zero_iff.1 hzero).resolve_left (Int.cast_ne_zero.2 hm.ne)
          exact_mod_cast this
        simp [hk0]
    · rw [if_neg (not_lt.2 (div_nonneg (Int.cast_nonneg hm) hk)), Int.tdiv_eq_ediv_of_nonneg hm]
  obtain ⟨k, rfl | rfl⟩ := n.eq_nat_or_neg
  · exact_mod_cast positive m k
  · rw [Int.tdiv_neg, ← Int.neg_tdiv, ← positive]
    push_cast
    rw [neg_div, div_neg]

theorem mul_tmod_nonneg (m n : Int) : 0 ≤ m * m.tmod n := by
  rcases le_total 0 m with hm | hm
  · exact mul_nonneg hm (Int.tmod_nonneg n hm)
  · refine mul_nonneg_of_nonpos_of_nonpos hm ?_
    have hneg := Int.tmod_nonneg (a := -m) n (by omega)
    rw [Int.neg_tmod] at hneg
    omega

/-! ## Rounded quotients -/

theorem roundDiv_mono (tie : Tie) (hmn : m ≤ n) : roundDiv tie m d ≤ roundDiv tie n d := by
  have hdiv : m / d ≤ n / d := Nat.div_le_div_right hmn
  rcases hdiv.eq_or_lt with heq | hlt
  · have hm := Nat.div_add_mod m d
    have hn := Nat.div_add_mod n d
    rw [← heq] at hn
    cases tie <;> simp only [roundDiv, ← heq] <;> split_ifs <;> omega
  · cases tie <;> simp only [roundDiv] <;> split_ifs <;> omega

/-- A quotient is not rounded across a whole number. -/
theorem roundDiv_places (hd : 0 < den) (num s : Nat) :
    num / den * 10 ^ s ≤ roundDiv .toEven (num * 10 ^ s) den ∧
      roundDiv .toEven (num * 10 ^ s) den ≤ (num / den + 1) * 10 ^ s := by
  have whole (w : Nat) : roundDiv .toEven (den * w * 10 ^ s) den = w * 10 ^ s := by
    rw [Nat.mul_assoc, roundDiv_of_dvd _ hd (Nat.dvd_mul_right _ _), Nat.mul_div_cancel_left _ hd]
  have hlow : den * (num / den) ≤ num := Nat.mul_div_le num den
  have hhigh : num ≤ den * (num / den + 1) := (Nat.lt_mul_div_succ num hd).le
  constructor
  · exact (whole _).symm.trans_le (roundDiv_mono _ (Nat.mul_le_mul_right _ hlow))
  · exact (roundDiv_mono _ (Nat.mul_le_mul_right _ hhigh)).trans_eq (whole _)

/-- The number falls short of a whole one by at most half a unit of the last decimal place that the
whole number has room for. -/
def JustBelow (q : ℚ) : Prop :=
  ∃ n : Nat, q < n ∧ n ≤ q + 1 / (2 * 10 ^ Decimal.room n maxScale)

theorem lt_and_le_iff (hd : 0 < den) (n t : Nat) :
    ((num / den : ℚ) < n ∧ n ≤ (num / den : ℚ) + 1 / (2 * 10 ^ t)) ↔
      num < n * den ∧ 2 * (n * 10 ^ t * den) ≤ 2 * (num * 10 ^ t) + den := by
  have hden : (0 : ℚ) < den := Nat.cast_pos.2 hd
  have hpow : (0 : ℚ) < 2 * 10 ^ t := by positivity
  have hsum : (n * (den * (2 * 10 ^ t)) : ℚ) = 2 * (n * 10 ^ t * den) := by ring
  have hsum' : (num * (2 * 10 ^ t) + den * 1 : ℚ) = 2 * (num * 10 ^ t) + den := by ring
  rw [div_lt_iff₀ hden, div_add_div _ _ hden.ne' hpow.ne', le_div_iff₀ (mul_pos hden hpow), hsum, hsum']
  exact and_congr (by exact_mod_cast Iff.rfl) (by exact_mod_cast Iff.rfl)

/-- Only the next whole number can be as near as that. -/
theorem justBelow_div_iff (hd : 0 < den) :
    JustBelow (num / den) ↔
      let n := num / den + 1
      let t := Decimal.room n maxScale
      2 * (n * 10 ^ t * den) ≤ 2 * (num * 10 ^ t) + den := by
  have hlow : num < (num / den + 1) * den := Nat.lt_mul_of_div_lt (Nat.lt_succ_self _) hd
  constructor
  · rintro ⟨n, hn⟩
    rw [lt_and_le_iff hd] at hn
    obtain ⟨hlt, hle⟩ := hn
    have hnext : n ≤ num / den + 1 := by
      by_contra hn
      have hscaled : (num / den + 1 + 1) * den * 10 ^ Decimal.room n maxScale ≤
          n * den * 10 ^ Decimal.room n maxScale :=
        Nat.mul_le_mul_right _ (Nat.mul_le_mul_right den (by omega))
      have hpos : 0 < 10 ^ Decimal.room n maxScale := Nat.pow_pos (by decide)
      nlinarith
    obtain rfl : n = num / den + 1 := hnext.antisymm (Nat.div_lt_of_lt_mul (Nat.mul_comm n den ▸ hlt))
    exact hle
  · exact fun h => ⟨num / den + 1, (lt_and_le_iff hd _ _).2 ⟨hlow, h⟩⟩

namespace Decimal

variable {x y z : Decimal} {negative : Bool}

/-! ## Fitting -/

theorem room_eq (hc : c * 10 ^ s < coefficientLimit) (hs : s ≤ bound)
    (hfull : s = bound ∨ coefficientLimit ≤ c * 10 ^ (s + 1)) : room c bound = s := by
  induction bound with
  | zero => exact (Nat.le_zero.1 hs).symm
  | succ bound ih =>
    rw [room, Nat.pow_eq]
    rcases hs.eq_or_lt with rfl | hlt
    · exact if_pos hc
    · have hlarge : coefficientLimit ≤ c * 10 ^ (bound + 1) :=
        (hfull.resolve_left hlt.ne).trans
          (Nat.mul_le_mul_left c (Nat.pow_le_pow_right (by decide) (by omega)))
      rw [if_neg (not_lt.2 hlarge)]
      refine ih (by omega) (hfull.imp_left fun h => absurd h hlt.ne)

theorem fit?_eq_none (h : coefficientLimit ≤ roundDiv .toEven num den) :
    fit? negative num den s = none := by
  have hnone : ∀ {c s}, coefficientLimit ≤ c → ofParts? negative c s = none :=
    fun hc => dif_neg fun hlt => absurd hlt.1 (not_lt.2 hc)
  induction s with
  | zero => exact hnone h
  | succ s ih =>
    have hle : num ≤ num * 10 ^ (s + 1) := Nat.le_mul_of_pos_right _ (Nat.pow_pos (by decide))
    rw [fit?]
    simp only [Nat.pow_eq]
    rw [hnone (h.trans (roundDiv_mono .toEven hle))]
    exact ih

/-- A quotient that is rounded to the next whole number is not exact, so that it was developed until
there was no room for another place. -/
theorem full_of_eq_next (hd : 0 < den)
    (heq : roundDiv .toEven (num * 10 ^ s) den = (num / den + 1) * 10 ^ s)
    (hend : den ∣ num * 10 ^ s ∨ s = maxScale ∨ coefficientLimit * den ≤ num * 10 ^ (s + 1)) :
    s = maxScale ∨ coefficientLimit ≤ (num / den + 1) * 10 ^ (s + 1) := by
  have hnext : num < (num / den + 1) * den := Nat.lt_mul_of_div_lt (Nat.lt_succ_self _) hd
  rcases hend with hdvd | hmax | hfull
  · exfalso
    have hexact : (num / den + 1) * den * 10 ^ s = num * 10 ^ s := by
      rw [Nat.mul_right_comm, ← heq, roundDiv_of_dvd _ hd hdvd, Nat.div_mul_cancel hdvd]
    exact (Nat.mul_lt_mul_of_pos_right hnext (Nat.pow_pos (by decide))).ne' hexact
  · exact .inl hmax
  · right
    refine Nat.le_of_mul_le_mul_right (hfull.trans ?_) hd
    rw [Nat.mul_right_comm]
    exact Nat.mul_le_mul_right _ hnext.le

/-- The decimal that a quotient is rounded to has the whole part of the quotient, unless this lies
just below a whole number. -/
theorem exists_fit?_truncate (negative : Bool) (hd : 0 < den) (hs : s ≤ maxScale)
    (hc : roundDiv .toEven num den < coefficientLimit)
    (hend : den ∣ num * 10 ^ s ∨ s = maxScale ∨ coefficientLimit * den ≤ num * 10 ^ (s + 1)) :
    ∃ z, fit? negative num den s = some z ∧
      (z.truncate = (if negative then -((num / den : Nat) : Int) else (num / den : Nat)) ∨
        JustBelow (num / den)) := by
  obtain ⟨z, s', hfit, hle, hparts, hlarger⟩ := exists_fit? negative s hs hc
  refine ⟨z, hfit, ?_⟩
  obtain ⟨hlow, hhigh⟩ := roundDiv_places hd num s'
  have hbounds := (roundDiv_bounds .toEven (num * 10 ^ s') hd).2
  have hcoefficient : roundDiv .toEven (num * 10 ^ s') den < coefficientLimit :=
    (ofParts?_eq_some hparts).2.1 ▸ z.coefficient_lt
  rcases hhigh.lt_or_eq with hlt | heq
  · left
    rw [truncate_ofParts hparts, Nat.div_eq_of_lt_le hlow hlt]
  · -- What is rounded to the next whole number has as many places as this has room for.
    right
    have hfull : s' = maxScale ∨ coefficientLimit ≤ (num / den + 1) * 10 ^ (s' + 1) := by
      rcases hlarger with rfl | hlarger
      · exact full_of_eq_next hd heq hend
      · exact .inr (hlarger.trans (roundDiv_places hd num (s' + 1)).2)
    have hroom : room (num / den + 1) maxScale = s' :=
      room_eq (heq ▸ hcoefficient) (hle.trans hs) hfull
    refine (justBelow_div_iff hd).2 ?_
    simp only [hroom, ← heq]
    exact hbounds

/-! ## Quotients -/

theorem truncate_eq (x : Decimal) :
    x.truncate = if x.negative then -(x.trunc.coefficient : Int) else x.trunc.coefficient := rfl

theorem truncate_dropZeroGroups (x : Decimal) : x.dropZeroGroups.truncate = x.truncate := by
  rw [truncate_eq, truncate_eq, IsAmount.negative_dropZeroGroups, IsAmount.trunc_coefficient,
    IsAmount.trunc_coefficient, units_dropZeroGroups]

theorem abs_value (x : Decimal) : |x.value| = x.coefficient / 10 ^ x.scale := by
  rw [value, abs_div, abs_withSign, Nat.abs_cast, abs_of_pos (by positivity)]

theorem abs_value_div (x y : Decimal) :
    |x.value / y.value| =
      ((x.coefficient * 10 ^ y.scale : Nat) : ℚ) / (y.coefficient * 10 ^ x.scale : Nat) := by
  rw [abs_div, abs_value, abs_value, div_div_div_eq]
  push_cast
  rw [mul_comm (10 ^ x.scale : ℚ)]

theorem units_eq (x : Decimal) :
    x.units = if x.negative then -((x.coefficient * 10 ^ (maxScale - x.scale) : Nat) : Int)
      else (x.coefficient * 10 ^ (maxScale - x.scale) : Nat) := by
  rw [units, signed]
  split
  · push_cast
    rw [Int.neg_mul]
    rfl
  · push_cast
    rfl

/-- The whole quotient of two decimals is that of their coefficients at a common scale. -/
theorem units_tdiv (x y : Decimal) :
    x.units.tdiv y.units =
      let whole := x.coefficient * 10 ^ y.scale / (y.coefficient * 10 ^ x.scale)
      if x.negative != y.negative then -(whole : Int) else whole := by
  have hscale : ∀ {z : Decimal} {k}, z.coefficient * 10 ^ (maxScale - z.scale) * 10 ^ (z.scale + k) =
      z.coefficient * 10 ^ k * 10 ^ maxScale := by
    intro z k
    have := z.scale_le
    rw [Nat.mul_assoc, Nat.mul_assoc, ← Nat.pow_add, ← Nat.pow_add]
    congr 2
    omega
  have hwhole : x.coefficient * 10 ^ (maxScale - x.scale) / (y.coefficient * 10 ^ (maxScale - y.scale)) =
      x.coefficient * 10 ^ y.scale / (y.coefficient * 10 ^ x.scale) := by
    rw [← Nat.mul_div_mul_right _ _ (show 0 < 10 ^ (x.scale + y.scale) from Nat.pow_pos (by decide)),
      hscale, Nat.add_comm, hscale, Nat.mul_div_mul_right _ _ (Nat.pow_pos (by decide))]
  rw [units_eq, units_eq]
  simp only
  rw [← hwhole]
  cases x.negative <;> cases y.negative <;>
    simp only [Bool.false_eq_true, if_false, if_true, Int.neg_tdiv, Int.tdiv_neg, Int.neg_neg,
      Int.ofNat_tdiv, bne_self_eq_false, Bool.bne_false, Bool.bne_true, Bool.not_false]

/-- A quotient is developed until it is exact, as many places as a decimal has are there or no other
fits. -/
theorem places_end (x y : Decimal) :
    let num := x.coefficient * 10 ^ y.scale
    let den := y.coefficient * 10 ^ x.scale
    let s := maxScale - unusedPlaces x.coefficient y.coefficient (maxScale + y.scale - x.scale)
    den ∣ num * 10 ^ s ∨ s = maxScale ∨ coefficientLimit * den ≤ num * 10 ^ (s + 1) := by
  intro num den s
  obtain ⟨p, hsum, hend⟩ :=
    exists_places x.coefficient y.coefficient (maxScale + y.scale - x.scale)
  have hscale := x.scale_le
  have hle : p + x.scale ≤ y.scale + s := by
    simp only [s]
    omega
  rcases hend with hdvd | hzero | hfull
  · left
    calc den ∣ x.coefficient * 10 ^ p * 10 ^ x.scale := Nat.mul_dvd_mul_right hdvd _
      _ = x.coefficient * 10 ^ (p + x.scale) := by rw [Nat.mul_assoc, Nat.pow_add]
      _ ∣ x.coefficient * 10 ^ (y.scale + s) := Nat.mul_dvd_mul_left _ (Nat.pow_dvd_pow 10 hle)
      _ = num * 10 ^ s := by rw [Nat.pow_add, ← Nat.mul_assoc]
  · right; left
    simp only [s, hzero, Nat.sub_zero]
  · right; right
    calc coefficientLimit * den ≤ x.coefficient * 10 ^ (p + x.scale + 1) :=
          limit_le_of_full x.scale hfull
      _ ≤ x.coefficient * 10 ^ (y.scale + (s + 1)) :=
          Nat.mul_le_mul_left _ (Nat.pow_le_pow_right (by decide) (by omega))
      _ = num * 10 ^ (s + 1) := by rw [Nat.pow_add, ← Nat.mul_assoc]

/-- A quotient that does not lie just below a whole number has the exact whole part, or is too large
for a decimal. -/
theorem truncate_div? (hy : ¬y.isZero) (hq : ¬JustBelow |x.value / y.value|) :
    match x.div? y with
    | some z => z.truncate = x.units.tdiv y.units
    | none => coefficientLimit ≤ (x.units.tdiv y.units).natAbs + 1 := by
  rw [Decimal.div?, if_neg hy]
  by_cases hx : x.isZero
  · rw [if_pos hx, units_eq_zero hx, Int.zero_tdiv]
    rfl
  have hden : 0 < y.coefficient * 10 ^ x.scale :=
    Nat.mul_pos (Nat.pos_of_ne_zero (by simpa [isZero] using hy)) (Nat.pow_pos (by decide))
  have hend := places_end x y
  have hwhole := units_tdiv x y
  rw [abs_value_div] at hq
  rw [if_neg hx]
  simp only [Nat.pow_eq] at hend hwhole ⊢
  generalize x.coefficient * 10 ^ y.scale = num at *
  generalize y.coefficient * 10 ^ x.scale = den at *
  generalize unusedPlaces x.coefficient y.coefficient _ = unused at *
  by_cases hc : roundDiv .toEven num den < coefficientLimit
  · obtain ⟨z, hz, htruncate⟩ :=
      exists_fit?_truncate (x.negative != y.negative) hden (Nat.sub_le maxScale unused) hc hend
    replace htruncate := (htruncate.resolve_right hq).trans hwhole.symm
    rw [hz]
    split_ifs
    · exact htruncate
    · exact z.truncate_dropZeroGroups.trans htruncate
  · have hnone : fit? (x.negative != y.negative) num den (maxScale - unused) = none :=
      fit?_eq_none (not_lt.1 hc)
    have hle := (roundDiv_places hden num 0).2
    rw [pow_zero, Nat.mul_one, Nat.mul_one] at hle
    have habs : (x.units.tdiv y.units).natAbs = num / den := by
      rw [hwhole]
      split
      · rw [Int.natAbs_neg, Int.natAbs_natCast]
      · rw [Int.natAbs_natCast]
    rw [hnone, Option.map_none, ite_self, habs]
    exact (not_lt.1 hc).trans hle

/-! ## Remainders -/

/-- At no step of the long division by a divisor of 96 bits does the dividend begin with the leading
word of the divisor. -/
def leadsApart (divisor n : Nat) : Nat → Bool
  | 0 => n / 2 ^ 96 != divisor / 2 ^ 64
  | words + 1 =>
    leadsApart divisor (n / 2 ^ 32) words &&
      (n / 2 ^ 32 % divisor * 2 ^ 32 + n % 2 ^ 32) / 2 ^ 96 != divisor / 2 ^ 64

theorem remainderStep_eq (h : n / 2 ^ 96 != d / 2 ^ 64) : remainderStep d n = n % d :=
  if_neg (by simpa using h)

/-- The long division gives the remainder. -/
theorem wordRemainder_eq {words : Nat} (h : leadsApart d n words) : wordRemainder d n words = n % d := by
  induction words generalizing n with
  | zero => exact remainderStep_eq h
  | succ words ih =>
    obtain ⟨hleading, hlast⟩ := Bool.and_eq_true_iff.1 h
    rw [wordRemainder]
    simp only [Nat.pow_eq]
    rw [ih hleading, remainderStep_eq hlast]
    calc (n / 2 ^ 32 % d * 2 ^ 32 + n % 2 ^ 32) % d
        = (n / 2 ^ 32 * 2 ^ 32 + n % 2 ^ 32) % d := by
          rw [Nat.add_mod, Nat.mul_mod, Nat.mod_mod, ← Nat.mul_mod, ← Nat.add_mod]
      _ = n % d := by rw [Nat.div_add_mod']

/-- The remainder of the coefficients `a` and `b` is computed without losing a word: the divisor has
two words, or the dividends of the long division never begin like it. -/
def keepsWords (a b : Nat) : Bool :=
  let shift := 2 ^ (95 - Nat.log2 b)
  b < 2 ^ 64 || leadsApart (b * shift) (a * shift) ((Nat.log2 (a * shift) - 95) / 32)

theorem coefficientRemainder_eq {a b : Nat} (h : keepsWords a b) : coefficientRemainder a b = a % b := by
  rw [coefficientRemainder]
  simp only [Nat.pow_eq]
  split_ifs with hb
  · rfl
  · rw [keepsWords, decide_eq_false hb, Bool.false_or] at h
    rw [wordRemainder_eq h, Nat.mul_mod_mul_right, Nat.mul_div_cancel _ (Nat.pow_pos (by decide))]

/-- The coefficient at a scale that is not below that of the decimal. -/
def aligned (x : Decimal) (scale : Nat) : Nat := x.coefficient * 10 ^ (scale - x.scale)

/-- The remainder of two decimals is computed without losing a word. -/
def HasRemainder (x y : Decimal) : Prop :=
  let scale := max x.scale y.scale
  x.aligned scale ≤ y.aligned scale ∨ keepsWords (x.aligned scale) (y.aligned scale)

theorem units_aligned (hs : x.scale ≤ s) (hmax : s ≤ maxScale) :
    x.units = (if x.negative then -1 else 1) * ((x.aligned s * 10 ^ (maxScale - s) : Nat) : Int) := by
  have hpow : 10 ^ (maxScale - x.scale) = 10 ^ (s - x.scale) * 10 ^ (maxScale - s) := by
    rw [← Nat.pow_add]
    congr 1
    omega
  rw [units_eq, aligned, hpow, Nat.mul_assoc]
  split <;> simp

theorem units_ofParts (hz : ofParts? negative c s = some z) :
    z.units = (if negative then -1 else 1) * ((c * 10 ^ (maxScale - s) : Nat) : Int) := by
  obtain ⟨hneg, hc, hs⟩ := ofParts?_eq_some hz
  rw [units_eq, hneg, hc, hs]
  by_cases h0 : c = 0
  · simp [h0]
  · cases negative <;> simp [h0]

/-- The remainder of the coefficients is that of the decimals. -/
theorem units_tmod (hx : x.scale ≤ s) (hy : y.scale ≤ s) (hmax : s ≤ maxScale) :
    x.units.tmod y.units = (if x.negative then -1 else 1) *
      ((x.aligned s % y.aligned s * 10 ^ (maxScale - s) : Nat) : Int) := by
  rw [units_aligned hx hmax, units_aligned hy hmax, ← Nat.mul_mod_mul_right]
  split_ifs <;> simp only [Int.neg_one_mul, Int.one_mul, Int.neg_tmod, Int.tmod_neg, Int.ofNat_tmod]

/-- A remainder of aligned coefficients fits, for one of them is the coefficient of its decimal. -/
theorem aligned_mod_lt (hy : ¬y.isZero) :
    x.aligned (max x.scale y.scale) % y.aligned (max x.scale y.scale) < coefficientLimit := by
  have hself : ∀ z : Decimal, z.aligned z.scale = z.coefficient := fun z => by
    rw [aligned, Nat.sub_self, Nat.pow_zero, Nat.mul_one]
  rcases le_total x.scale y.scale with h | h
  · have hpos : 0 < y.coefficient := Nat.pos_of_ne_zero (by simpa [isZero] using hy)
    rw [max_eq_right h, hself y]
    exact (Nat.mod_lt _ hpos).trans y.coefficient_lt
  · rw [max_eq_left h, hself x]
    exact (Nat.mod_le _ _).trans_lt x.coefficient_lt

/-- A remainder is exact, where no word is lost. -/
theorem exists_rem? (hy : ¬y.isZero) (hr : x.HasRemainder y) :
    ∃ z, x.rem? y = some z ∧ z.units = x.units.tmod y.units := by
  rw [Decimal.rem?, if_neg hy]
  by_cases hx : x.isZero
  · exact ⟨zero, if_pos hx, by rw [units_eq_zero hx, Int.zero_tmod]; rfl⟩
  have hmax : max x.scale y.scale ≤ maxScale := max_le x.scale_le y.scale_le
  have hfits := aligned_mod_lt (x := x) hy
  rw [HasRemainder] at hr
  rw [if_neg hx, units_tmod (le_max_left x.scale y.scale) (le_max_right x.scale y.scale) hmax]
  show ∃ z, (if x.aligned _ < y.aligned _ then some x
    else if x.aligned _ = y.aligned _ then some zero
    else ofParts? x.negative (coefficientRemainder (x.aligned _) (y.aligned _)) _) = some z ∧ _
  have hxunits := units_aligned (le_max_left x.scale y.scale) hmax
  generalize x.aligned (max x.scale y.scale) = a at *
  generalize y.aligned (max x.scale y.scale) = b at *
  rcases lt_trichotomy a b with hlt | rfl | hlt
  · exact ⟨x, if_pos hlt, by rw [Nat.mod_eq_of_lt hlt, hxunits]⟩
  · refine ⟨zero, by rw [if_neg (lt_irrefl a), if_pos rfl], ?_⟩
    rw [Nat.mod_self, Nat.zero_mul, Nat.cast_zero, mul_zero]
    rfl
  · rw [if_neg hlt.not_gt, if_neg hlt.ne',
      coefficientRemainder_eq (hr.resolve_left (not_le.2 hlt))]
    exact ⟨_, ofParts?_of_lt hfits hmax, units_ofParts (ofParts?_of_lt hfits hmax)⟩

/-! ## Numbers -/

theorem value_eq_units (x : Decimal) : x.value = x.units / 10 ^ maxScale := by
  rw [units_eq_value, mul_div_cancel_right₀ _ (pow_ne_zero _ (by decide))]

theorem isZero_iff : x.isZero ↔ x.value = 0 := by
  have hpow : (10 : ℚ) ^ x.scale ≠ 0 := pow_ne_zero _ (by decide)
  rw [isZero, decide_eq_true_iff, ← abs_eq_zero, abs_value, div_eq_zero_iff]
  simp [hpow]

/-- The whole quotient in units is the truncated one. -/
theorem truncated_value_div (x y : Decimal) :
    truncated (x.value / y.value) = x.units.tdiv y.units := by
  rw [value_eq_units, value_eq_units, div_div_div_cancel_right₀ (pow_ne_zero _ (by decide)),
    truncated_div]

/-- What the whole quotient leaves of the dividend is smaller than the divisor and not of the other
sign. -/
theorem value_of_units_tmod (hy : y.value ≠ 0) (hz : z.units = x.units.tmod y.units) :
    |z.value| < |y.value| ∧ 0 ≤ x.value * z.value ∧
      x.value = truncated (x.value / y.value) * y.value + z.value := by
  have hpow : (0 : ℚ) < 10 ^ maxScale := by positivity
  have hyunits : y.units ≠ 0 := by
    intro h
    rw [value_eq_units, h] at hy
    simp at hy
  refine ⟨?_, ?_, ?_⟩
  · rw [value_eq_units, value_eq_units, abs_div, abs_div, hz]
    refine div_lt_div_of_pos_right ?_ (abs_pos.2 hpow.ne')
    have hlt : (x.units.tmod y.units).natAbs < y.units.natAbs := by
      rw [Int.natAbs_tmod]
      exact Nat.mod_lt _ (Int.natAbs_pos.2 hyunits)
    rw [← Int.cast_abs, ← Int.cast_abs, Int.abs_eq_natAbs, Int.abs_eq_natAbs]
    exact_mod_cast hlt
  · rw [value_eq_units, value_eq_units, div_mul_div_comm, hz]
    refine div_nonneg ?_ (mul_pos hpow hpow).le
    exact_mod_cast mul_tmod_nonneg x.units y.units
  · rw [truncated_value_div, value_eq_units, value_eq_units y, value_eq_units z, hz, ← mul_div_assoc,
      ← add_div]
    congr 1
    exact_mod_cast (Int.tdiv_mul_add_tmod x.units y.units).symm

end Decimal

end XPath.Number
