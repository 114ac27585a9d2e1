import XPath.Proofs.Number.Division

/-!
# The capacity of decimals

An operation has a result unless not even the scale zero fits: the exact result must stay below the
largest coefficient and a half, since a tie there is rounded to the even number that is too large
(`Decimal.add?_eq_none_iff`).
-/

namespace XPath.Number

variable {m n d num den s : Nat}

/-- An even number is reached from half a unit below it. -/
theorem le_roundDiv_toEven_iff (hd : 0 < d) (hm : 0 < m) (heven : m % 2 = 0) :
    m ≤ roundDiv .toEven n d ↔ (2 * m - 1) * d ≤ 2 * n := by
  have hbounds := roundDiv_bounds .toEven n hd
  have hsplit : (2 * m - 1) * d + d = 2 * (m * d) := by
    rw [← Nat.succ_mul, ← Nat.mul_assoc]
    congr 1
    omega
  constructor
  · intro hle
    have := Nat.mul_le_mul_right d hle
    omega
  · intro hle
    by_contra hlt
    have hround := Nat.mul_le_mul_right d (show roundDiv .toEven n d + 1 ≤ m by omega)
    rw [Nat.succ_mul] at hround
    -- Only a tie is left, and below an even number a tie is rounded up.
    obtain ⟨q, rfl⟩ : ∃ q, m = q + 1 := ⟨m - 1, by omega⟩
    have hnext : (q + 1) * d = q * d + d := Nat.succ_mul q d
    rw [hnext] at hsplit hround
    have hq : n / d = q := Nat.div_eq_of_lt_le (by omega) (by omega)
    have hmod := Nat.div_add_mod n d
    rw [hq, Nat.mul_comm] at hmod
    have htie : roundDiv .toEven n d = q + 1 := by
      simp only [roundDiv, hq]
      rw [if_neg (by omega), if_neg (by omega), if_neg (by omega)]
    omega

namespace Decimal

variable {x y : Decimal} {negative : Bool}

theorem fit?_eq_none_iff (hd : 0 < den) (hs : s ≤ maxScale) :
    fit? negative num den s = none ↔ (2 * coefficientLimit - 1) * den ≤ 2 * num := by
  rw [← le_roundDiv_toEven_iff hd (by decide) (by decide)]
  constructor
  · intro hnone
    by_contra hlt
    obtain ⟨z, -, hfit, -⟩ := exists_fit? negative s hs (not_le.1 hlt)
    rw [hnone] at hfit
    cases hfit
  · exact fit?_eq_none

/-- The largest coefficient at scale zero is the largest number. -/
theorem natAbs_units_le (x : Decimal) : x.units.natAbs ≤ (coefficientLimit - 1) * 10 ^ maxScale := by
  rw [IsAmount.units_natAbs]
  have := x.coefficient_lt
  exact Nat.mul_le_mul (by omega) (Nat.pow_le_pow_right (by decide) (Nat.sub_le _ _))

theorem units_of_isZero (hx : x.isZero) : x.units = 0 := by
  rw [isZero, decide_eq_true_iff] at hx
  rw [← Int.natAbs_eq_zero, IsAmount.units_natAbs, hx, Nat.zero_mul]

/-- A sum has a result unless it reaches half a unit more than the largest number, up or down. -/
theorem add?_eq_none_iff :
    x.add? y = none ↔ (2 * coefficientLimit - 1) * 10 ^ maxScale ≤ 2 * (x.units + y.units).natAbs := by
  have hlimit : (2 * coefficientLimit - 1) * 10 ^ maxScale =
      2 * ((coefficientLimit - 1) * 10 ^ maxScale) + 10 ^ maxScale := by decide
  rw [Decimal.add?]
  by_cases hx : x.isZero
  · have := natAbs_units_le y
    have hpow : 0 < 10 ^ maxScale := by decide
    rw [if_pos hx, units_of_isZero hx, Int.zero_add]
    exact iff_of_false (Option.some_ne_none _) (by omega)
  by_cases hy : y.isZero
  · have := natAbs_units_le x
    have hpow : 0 < 10 ^ maxScale := by decide
    rw [if_neg hx, if_pos hy, units_of_isZero hy, Int.add_zero]
    exact iff_of_false (Option.some_ne_none _) (by omega)
  rw [if_neg hx, if_neg hy]
  have hscale : max x.scale y.scale ≤ maxScale := Nat.max_le.2 ⟨x.scale_le, y.scale_le⟩
  have hle := Nat.le_max_left x.scale y.scale
  have hle' := Nat.le_max_right x.scale y.scale
  simp only [Nat.pow_eq]
  generalize max x.scale y.scale = scale at hscale hle hle'
  rw [fit?_eq_none_iff (Nat.pow_pos (by decide)) hscale]
  -- Both sides are multiplied with the places that the common scale leaves out.
  have hunits : ∀ z : Decimal, z.scale ≤ scale → z.units =
      z.signed * ((10 ^ (scale - z.scale) : Nat) : Int) * ((10 ^ (maxScale - scale) : Nat) : Int) := by
    intro z hz
    rw [units, Int.mul_assoc, ← Int.natCast_mul, ← Nat.pow_add]
    congr 3
    omega
  rw [hunits x hle, hunits y hle', ← Int.add_mul, Int.natAbs_mul, Int.natAbs_natCast, ← Nat.mul_assoc]
  have hpow : 10 ^ maxScale = 10 ^ scale * 10 ^ (maxScale - scale) := by
    rw [← Nat.pow_add]
    congr 1
    omega
  rw [hpow, ← Nat.mul_assoc]
  exact (Nat.mul_le_mul_right_iff (Nat.pow_pos (by decide))).symm

/-! ## Whole numbers -/

theorem isZero_ofInt (hn : n < coefficientLimit) : (ofInt n).isZero ↔ n = 0 :=
  (isAmount_ofInt hn).isZero_iff

theorem fit?_whole (hn : n < coefficientLimit) :
    fit? false n (10 ^ 0) 0 = some (ofInt n) := by
  rw [fit?_exact (by decide) hn, ofParts?_of_lt hn (by decide), ofInt_natCast hn]
  rfl

theorem ofInt_add? (h : m + n < coefficientLimit) :
    (ofInt m).add? (ofInt n) = some (ofInt (m + n : Nat)) := by
  have hm : m < coefficientLimit := by omega
  have hn : n < coefficientLimit := by omega
  rw [Decimal.add?]
  split
  case isTrue hzero => rw [(isZero_ofInt hm).1 hzero, Nat.zero_add]
  split
  case isTrue hzero => rw [(isZero_ofInt hn).1 hzero, Nat.add_zero]
  have hsum : (m : Int) * (10 ^ 0 : Nat) + (n : Int) * (10 ^ 0 : Nat) = ((m + n : Nat) : Int) := by
    push_cast
    ring
  have hneg : decide (((m + n : Nat) : Int) < 0) = false := decide_eq_false (by omega)
  simp only [ofInt_natCast hm, ofInt_natCast hn, signed, Bool.false_eq_true, if_false, Nat.pow_eq,
    Nat.max_self, Nat.sub_self]
  rw [hsum, hneg, Int.natAbs_natCast, fit?_whole h]

theorem ofInt_mul? (hm : m < coefficientLimit) (hn : n < coefficientLimit)
    (h : m * n < coefficientLimit) : (ofInt m).mul? (ofInt n) = some (ofInt (m * n : Nat)) := by
  have hfit : fit? false (m * n) (Nat.pow 10 (0 + 0)) (min (0 + 0) maxScale) = some (ofInt (m * n : Nat)) :=
    fit?_whole h
  rw [Decimal.mul?]
  by_cases hzero : ((ofInt m).isZero || (ofInt n).isZero) = true
  · have hproduct : m * n = 0 := by
      rw [Bool.or_eq_true, isZero_ofInt hm, isZero_ofInt hn] at hzero
      exact Nat.mul_eq_zero.2 hzero
    simp only [hzero, if_true, hproduct]
    rfl
  · have hscale : ¬maxScale + 19 < 0 + 0 := by decide
    simp only [hzero, Bool.false_eq_true, if_false]
    simp only [ofInt_natCast hm, ofInt_natCast hn, bne_self_eq_false, hfit, if_neg hscale,
      ofInt_natCast h, Option.map_some, ite_self]

end Decimal

end XPath.Number
