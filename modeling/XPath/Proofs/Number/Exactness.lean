import Mathlib.Tactic.FieldSimp
import XPath.Proofs.Number.Formats

/-!
# Exact values

What a number denotes is a rational (`Binary.value?`, `Decimal.value`). Rounding leaves alone what the
format holds (`Binary.value?_ofRatio`) and takes nothing across a power of two
(`Binary.le_value?_ofRatio`), so a whole decimal equals a small integer if and only if its double does
(`Decimal.toInt?_toDouble`). The double of an integer or a decimal is never NaN.
-/

namespace XPath.Number

variable {f : Format} {s negative : Bool} {num den m n : Nat} {e i j k : Int} {q : ℚ}

/-- A magnitude with its sign. -/
def withSign (negative : Bool) (q : ℚ) : ℚ := if negative then -q else q

theorem withSign_inj {r : ℚ} : withSign s q = withSign s r ↔ q = r := by
  cases s
  · exact Iff.rfl
  · exact neg_inj

theorem abs_withSign (negative : Bool) (q : ℚ) : |withSign negative q| = |q| := by
  cases negative
  · rfl
  · exact abs_neg q

theorem withSign_mul (negative : Bool) (q r : ℚ) : withSign negative (q * r) = withSign negative q * r := by
  cases negative
  · rfl
  · exact (neg_mul q r).symm

theorem withSign_natAbs (i : Int) : withSign (decide (i < 0)) (i.natAbs : ℚ) = i := by
  rw [Nat.cast_natAbs]
  by_cases hi : i < 0
  · simp [withSign, hi, abs_of_neg hi]
  · simp [withSign, hi, abs_of_nonneg (not_lt.1 hi)]

namespace Binary

/-- The number that is meant, if it is finite. -/
def value? : Binary f → Option ℚ
  | .finite s m e => some (withSign s (m * 2 ^ e))
  | _ => none

/-! ## Integers and comparison -/

theorem scaleBy_eq (n : Nat) (e : Int) : ((scaleBy n e).1 : ℚ) = n * 2 ^ e * (scaleBy n e).2 := by
  rw [scaleBy]
  split
  case isTrue he =>
    have hpow : (2 : ℚ) ^ e * 2 ^ e.natAbs = 1 := by
      rw [← zpow_natCast, ← zpow_add₀ (by decide), show e + (e.natAbs : Int) = 0 by omega, zpow_zero]
    simp only [Nat.pow_eq]
    push_cast
    rw [mul_assoc, hpow, mul_one]
  case isFalse he =>
    simp only [Nat.pow_eq]
    push_cast
    rw [mul_one, ← zpow_natCast, show (e.natAbs : Int) = e by omega]

/-- A number equals an integer if it is the number that the integer is. -/
theorem toInt?_eq_some {x : Binary f} : x.toInt? = some i ↔ x.value? = some (i : ℚ) := by
  cases x with
  | nan => simp [toInt?, value?]
  | infinite => simp [toInt?, value?]
  | finite s m e =>
    obtain ⟨num, den, hscale⟩ : ∃ num den, scaleBy m e = (num, den) := ⟨_, _, rfl⟩
    have hratio := scaleBy_eq m e
    have hpos := scaleBy_den_pos m e
    rw [toInt?, value?, ratio]
    simp only [hscale] at hratio hpos ⊢
    have hden : (den : ℚ) ≠ 0 := Nat.cast_ne_zero.2 hpos.ne'
    have hsigned (n : Nat) : ((if s then -(n : Int) else n : Int) : ℚ) = withSign s n := by
      cases s <;> simp [withSign]
    rw [Option.ite_none_right_eq_some, Option.some_inj, Option.some_inj]
    constructor
    · rintro ⟨hmod, rfl⟩
      obtain ⟨n, rfl⟩ := Nat.dvd_of_mod_eq_zero hmod
      rw [Nat.cast_mul, mul_comm, mul_left_inj' hden] at hratio
      have hdiv : ((den * n : Nat) : Int) / den = (n : Nat) := by
        rw [Nat.cast_mul, Int.mul_ediv_cancel_left _ (by omega)]
      rw [hdiv, hsigned, hratio]
    · intro hi
      have hnum : num = i.natAbs * den := by
        have habs : (i.natAbs : ℚ) = m * 2 ^ e := by
          rw [Nat.cast_natAbs, Int.cast_abs, ← hi]
          have hle : (0 : ℚ) ≤ m * 2 ^ e := mul_nonneg (Nat.cast_nonneg m) (zpow_nonneg (by decide) e)
          cases s
          · exact abs_of_nonneg hle
          · exact (abs_neg _).trans (abs_of_nonneg hle)
        rw [← habs] at hratio
        exact_mod_cast hratio
      subst hnum
      have hdiv : ((i.natAbs * den : Nat) : Int) / den = (i.natAbs : Nat) := by
        rw [Nat.cast_mul, Int.mul_ediv_cancel _ (by omega)]
      refine ⟨Nat.mul_mod_left _ _, ?_⟩
      rw [Nat.cast_mul, mul_left_inj' hden] at hratio
      rw [← hratio, ← hsigned] at hi
      rw [hdiv]
      exact_mod_cast hi

theorem units_eq (he : f.leastExponent ≤ e) :
    (units f s m e : ℚ) * 2 ^ f.leastExponent = withSign s (m * 2 ^ e) := by
  have hpow : (2 : ℚ) ^ (e - f.leastExponent).toNat * 2 ^ f.leastExponent = 2 ^ e := by
    rw [← zpow_natCast, ← zpow_add₀ (by decide)]
    congr 1
    omega
  rw [← hpow]
  cases s <;> simp [units, withSign, mul_assoc]

/-- Numbers of the format are equal if they are the same number. -/
theorem compare_eq_iff {x y : Binary f} (hx : x.InFormat) (hy : y.InFormat) (hq : x.value? = some q) :
    x.compare y = some .eq ↔ y.value? = some q := by
  cases x with
  | nan => cases hq
  | infinite => cases hq
  | finite s m e =>
    cases hq
    cases y with
    | nan => simp [compare, value?]
    | infinite t => cases t <;> simp [compare, value?]
    | finite t n k =>
      have hpow : (2 : ℚ) ^ f.leastExponent ≠ 0 := zpow_ne_zero _ (by decide)
      rw [compare, value?, Option.some_inj, Option.some_inj, compare_eq_iff_eq, ← units_eq hx.2.1,
        ← units_eq hy.2.1, mul_left_inj' hpow, Int.cast_inj]
      exact eq_comm

/-! ## Rounding -/

/-- The power of two of its leading bit is not above a quotient. -/
theorem leadingExponent_le (den : Nat) (hn : 0 < num) :
    (den : ℚ) * 2 ^ leadingExponent num den ≤ num := by
  have hnum : (2 : ℚ) ^ num.log2 ≤ num := by exact_mod_cast Nat.log2_self_le hn.ne'
  have hden : (den : ℚ) ≤ 2 ^ (den.log2 + 1) := by exact_mod_cast Nat.lt_log2_self.le
  have hcompare := shifted_lt_iff num den 1 (num.log2 - den.log2)
  rw [Nat.one_mul, Nat.cast_one, one_mul] at hcompare
  rw [leadingExponent_eq]
  split
  case isTrue hle => exact not_lt.1 fun hlt => absurd (hcompare.2 hlt) (not_lt.2 hle)
  case isFalse =>
    calc (den : ℚ) * 2 ^ ((num.log2 : Int) - den.log2 - 1)
        ≤ 2 ^ (den.log2 + 1) * 2 ^ ((num.log2 : Int) - den.log2 - 1) :=
          mul_le_mul_of_nonneg_right hden (zpow_nonneg (by decide) _)
      _ = 2 ^ num.log2 := by
        rw [← zpow_natCast, ← zpow_natCast, ← zpow_add₀ (by decide)]
        congr 1
        push_cast
        ring
      _ ≤ num := hnum

theorem shifted_eq (num den : Nat) (e : Int) :
    ((shifted num den e).1 : ℚ) * (den * 2 ^ e) = num * (shifted num den e).2 := by
  rw [shifted]
  split
  case isTrue he =>
    have hpow : (2 : ℚ) ^ e.natAbs * 2 ^ e = 1 := by
      rw [← zpow_natCast, ← zpow_add₀ (by decide), show (e.natAbs : Int) + e = 0 by omega, zpow_zero]
    simp only [Nat.pow_eq]
    push_cast
    calc (num : ℚ) * 2 ^ e.natAbs * (den * 2 ^ e) = num * den * (2 ^ e.natAbs * 2 ^ e) := by ring
      _ = num * den := by rw [hpow, mul_one]
  case isFalse he =>
    have hpow : (2 : ℚ) ^ e = 2 ^ e.natAbs := by
      rw [← zpow_natCast, show (e.natAbs : Int) = e by omega]
    simp only [Nat.pow_eq]
    push_cast
    rw [hpow]

theorem shifted_den_pos (num : Nat) (hd : 0 < den) (e : Int) : 0 < (shifted num den e).2 := by
  rw [shifted]
  split
  · exact hd
  · exact Nat.mul_pos hd (Nat.pow_pos (by decide))

/-- The exponent that a quotient is rounded at. -/
def roundingExponent (f : Format) (num den : Nat) : Int :=
  max f.leastExponent (leadingExponent num den - (f.precision - 1))

/-- A rounded mantissa with its exponent. -/
def ofRounded (negative : Bool) (m : Nat) (e : Int) : Binary f :=
  if m = 2 ^ f.precision then
    if f.greatestExponent < e + 1 then .infinite negative else .finite negative (m / 2) (e + 1)
  else if f.greatestExponent < e then .infinite negative else .finite negative m e

theorem ofRatio_eq_ofRounded (negative : Bool) (den : Nat) (hn : num ≠ 0) :
    (ofRatio negative num den : Binary f) = ofRounded negative
      (roundDiv .toEven (shifted num den (roundingExponent f num den)).1
        (shifted num den (roundingExponent f num den)).2) (roundingExponent f num den) := by
  rw [ofRatio_eq, if_neg hn]
  rfl

theorem value?_ofRounded_of_lt (negative : Bool) (hm : m < 2 ^ f.precision)
    (he : e ≤ f.greatestExponent) :
    (ofRounded negative m e : Binary f).value? = some (withSign negative (m * 2 ^ e)) := by
  rw [ofRounded, if_neg hm.ne, if_neg (by omega), value?]

theorem eq_of_value?_ofRounded (hp : 0 < f.precision)
    (hq : (ofRounded negative m e : Binary f).value? = some q) : q = withSign negative (m * 2 ^ e) := by
  rw [ofRounded] at hq
  split at hq
  case isTrue hm =>
    split at hq
    · cases hq
    · cases hq
      have hhalf : m / 2 * 2 = m := by
        obtain ⟨p, hp⟩ : ∃ p, f.precision = p + 1 := ⟨f.precision - 1, by omega⟩
        rw [hm, hp, Nat.pow_succ, Nat.mul_div_cancel _ (by decide)]
      rw [withSign_inj, zpow_add_one₀ (by decide), mul_comm (2 ^ e : ℚ), ← mul_assoc]
      exact congrArg (· * (2 : ℚ) ^ e) (by exact_mod_cast hhalf)
  case isFalse =>
    split at hq
    · cases hq
    · cases hq
      rfl

/-- A quotient that the format holds is not changed. -/
theorem value?_ofRatio (negative : Bool) (hd : 0 < den) (hm : m < 2 ^ f.precision)
    (hlow : f.leastExponent ≤ e) (hhigh : e ≤ f.greatestExponent) (hnum : (num : ℚ) = m * 2 ^ e * den) :
    (ofRatio negative num den : Binary f).value? = some (withSign negative (m * 2 ^ e)) := by
  have hden : (0 : ℚ) < den := Nat.cast_pos.2 hd
  have hpow (k : Int) : (0 : ℚ) < 2 ^ k := zpow_pos (by decide) k
  rcases Nat.eq_zero_or_pos num with rfl | hn
  · have hzero : (m : ℚ) * 2 ^ e = 0 := by
      rw [Nat.cast_zero, eq_comm, mul_eq_zero] at hnum
      exact hnum.resolve_right hden.ne'
    rw [hzero, ofRatio_eq, if_pos rfl, zero, value?, Nat.cast_zero, zero_mul]
  have hlead : leadingExponent num den < f.precision + e := by
    have hle := leadingExponent_le den hn
    rw [hnum, mul_comm (den : ℚ), mul_le_mul_iff_left₀ hden] at hle
    rw [← zpow_lt_zpow_iff_right₀ (show (1 : ℚ) < 2 by norm_num), zpow_add₀ (by decide), zpow_natCast]
    refine hle.trans_lt (mul_lt_mul_of_pos_right ?_ (hpow e))
    exact_mod_cast hm
  have hlast : (num : ℚ) < den * 2 ^ (f.precision + roundingExponent f num den) := by
    refine (lt_leadingExponent num hd).trans_le (mul_le_mul_of_nonneg_left ?_ hden.le)
    refine zpow_le_zpow_right₀ (by norm_num) ?_
    rw [roundingExponent]
    omega
  -- The quotient is rounded at an exponent up to its own, where it is a whole number.
  obtain ⟨t, ht⟩ : ∃ t : Nat, e = roundingExponent f num den + t := by
    refine ⟨(e - roundingExponent f num den).toNat, ?_⟩
    rw [roundingExponent]
    omega
  have hshifted := shifted_eq num den (roundingExponent f num den)
  have hpos := shifted_den_pos num hd (roundingExponent f num den)
  rw [ofRatio_eq_ofRounded _ _ hn.ne']
  generalize shifted num den (roundingExponent f num den) = ab at hshifted hpos ⊢
  generalize roundingExponent f num den = r at *
  obtain ⟨a, b⟩ := ab
  subst ht
  have ha : a = m * 2 ^ t * b := by
    rw [hnum, zpow_add₀ (by decide), zpow_natCast] at hshifted
    have : (a : ℚ) = m * 2 ^ t * b :=
      mul_right_cancel₀ (mul_pos hden (hpow r)).ne' (by rw [hshifted]; ring)
    exact_mod_cast this
  have hround : roundDiv .toEven a b = m * 2 ^ t := by
    rw [ha, roundDiv_of_dvd _ hpos (Nat.dvd_mul_left _ _), Nat.mul_div_cancel _ hpos]
  have hsmall : m * 2 ^ t < 2 ^ f.precision := by
    have hlt : (m * 2 ^ t : ℚ) * (2 ^ r * den) < 2 ^ f.precision * (2 ^ r * den) := by
      calc (m * 2 ^ t : ℚ) * (2 ^ r * den) = num := by
            rw [hnum, zpow_add₀ (by decide), zpow_natCast]
            ring
        _ < den * 2 ^ (f.precision + r) := hlast
        _ = 2 ^ f.precision * (2 ^ r * den) := by
          rw [zpow_add₀ (by decide), zpow_natCast]
          ring
    exact_mod_cast lt_of_mul_lt_mul_right hlt (mul_pos (hpow r) hden).le
  simp only
  rw [hround, value?_ofRounded_of_lt _ hsmall (by omega), zpow_add₀ (by decide), zpow_natCast,
    Nat.cast_mul, Nat.cast_pow, Nat.cast_ofNat]
  congr 2
  ring

/-- A quotient that is not below a power of two is not rounded below it. -/
theorem le_value?_ofRatio (hp : 0 < f.precision) (hd : 0 < den) (hlow : f.leastExponent ≤ k)
    (hnum : (den : ℚ) * 2 ^ k ≤ num) (hq : (ofRatio false num den : Binary f).value? = some q) :
    2 ^ k ≤ q := by
  have hden : (0 : ℚ) < den := Nat.cast_pos.2 hd
  have hpow (k : Int) : (0 : ℚ) < 2 ^ k := zpow_pos (by decide) k
  have hn : 0 < num := Nat.cast_pos.1 ((mul_pos hden (hpow k)).trans_le hnum)
  have hmax : (den : ℚ) * 2 ^ max k (roundingExponent f num den) ≤ num := by
    rcases le_total (roundingExponent f num den) k with hle | hle
    · rwa [max_eq_left hle]
    rcases le_total (leadingExponent num den - (f.precision - 1)) f.leastExponent with hleast | hleast
    · have : max k (roundingExponent f num den) = k := by
        rw [roundingExponent] at hle ⊢
        omega
      rwa [this]
    · refine (mul_le_mul_of_nonneg_left (zpow_le_zpow_right₀ (by norm_num) ?_) hden.le).trans
        (leadingExponent_le den hn)
      rw [roundingExponent] at hle ⊢
      omega
  have hshifted := shifted_eq num den (roundingExponent f num den)
  have hpos := shifted_den_pos num hd (roundingExponent f num den)
  rw [ofRatio_eq_ofRounded _ _ hn.ne'] at hq
  rw [eq_of_value?_ofRounded hp hq]
  generalize shifted num den (roundingExponent f num den) = ab at hshifted hpos ⊢
  generalize roundingExponent f num den = r at *
  obtain ⟨a, b⟩ := ab
  obtain ⟨t, ht⟩ : ∃ t : Nat, max k r = r + t := ⟨(max k r - r).toNat, by omega⟩
  have ha : 2 ^ t * b ≤ a := by
    rw [ht, zpow_add₀ (by decide), zpow_natCast] at hmax
    have hmul : (2 ^ t * b : ℚ) * (den * 2 ^ r) ≤ a * (den * 2 ^ r) := by
      rw [hshifted]
      calc (2 ^ t * b : ℚ) * (den * 2 ^ r) = den * (2 ^ r * 2 ^ t) * b := by ring
        _ ≤ num * b := mul_le_mul_of_nonneg_right hmax (Nat.cast_nonneg b)
    exact_mod_cast le_of_mul_le_mul_right hmul (mul_pos hden (hpow r))
  have hround : 2 ^ t ≤ roundDiv .toEven a b := by
    have hdiv : 2 ^ t ≤ a / b := (Nat.le_div_iff_mul_le hpos).2 ha
    have hle : a / b ≤ roundDiv .toEven a b := by
      simp only [roundDiv]
      split_ifs <;> omega
    omega
  calc (2 : ℚ) ^ k ≤ 2 ^ max k r := zpow_le_zpow_right₀ (by norm_num) (le_max_left k r)
    _ = 2 ^ t * 2 ^ r := by rw [ht, add_comm r, zpow_add₀ (by decide), zpow_natCast]
    _ ≤ roundDiv .toEven a b * 2 ^ r := mul_le_mul_of_nonneg_right (by exact_mod_cast hround) (hpow r).le

/-- Rounding does not look at the sign. -/
theorem value?_ofRatio_sign (negative : Bool) (num den : Nat) :
    (ofRatio negative num den : Binary f).value? =
      (ofRatio false num den : Binary f).value?.map (withSign negative) := by
  rw [ofRatio_eq, ofRatio_eq]
  split_ifs
  · simp [zero, value?, withSign]
  all_goals simp only; split_ifs <;> rfl

theorem value?_ofInt_neg (n : Nat) :
    (ofInt (-(n : Int)) : Binary f).value? = (ofInt n : Binary f).value?.map (-·) := by
  rcases Nat.eq_zero_or_pos n with rfl | hn
  · simp [ofInt, ofRatio_eq, zero, value?, withSign]
  · have hnot : ¬(n : Int) < 0 := by omega
    rw [ofInt, ofInt, decide_eq_true (show -(n : Int) < 0 by omega), decide_eq_false hnot, Int.natAbs_neg,
      value?_ofRatio_sign]
    rfl

/-- Small integers are doubles. -/
theorem value?_ofInt (hi : i.natAbs < 2 ^ 53) : (ofInt i : Double).value? = some (i : ℚ) := by
  have hexact := value?_ofRatio (f := .binary64) (i < 0) Nat.one_pos hi
    (show Format.binary64.leastExponent ≤ 0 by decide) (show 0 ≤ Format.binary64.greatestExponent by decide)
    (show (i.natAbs : ℚ) = i.natAbs * 2 ^ (0 : Int) * (1 : Nat) by simp)
  rw [zpow_zero, mul_one, withSign_natAbs] at hexact
  exact hexact

/-- The double of a large integer is large. -/
theorem le_value?_ofInt {x : Double} (hx : x = ofInt n) (hn : 2 ^ 53 ≤ n) (hq : x.value? = some q) :
    2 ^ 53 ≤ q := by
  subst hx
  have hle := le_value?_ofRatio (f := .binary64) (k := 53) (by decide) Nat.one_pos (by decide)
    (show ((1 : Nat) : ℚ) * 2 ^ (53 : Int) ≤ n by exact_mod_cast (Nat.one_mul _).trans_le hn) hq
  exact_mod_cast hle

theorem value?_neg (x : Binary f) : (-x).value? = x.value?.map (-·) := by
  cases x with
  | nan => rfl
  | infinite => rfl
  | finite s m e =>
    show some _ = some _
    cases s <;> simp [withSign]

end Binary

/-- A single is a double as well. -/
theorem Single.value?_widen {x : Single} (hx : x.InFormat) : x.widen.value? = x.value? := by
  cases x with
  | nan => rfl
  | infinite => rfl
  | finite s m e =>
    obtain ⟨hm, hlow, hhigh⟩ := hx
    have hwide (e : Int) : Format.binary32.leastExponent ≤ e → e ≤ Format.binary32.greatestExponent →
        Format.binary64.leastExponent ≤ e ∧ e ≤ Format.binary64.greatestExponent := by
      simp only [Format.binary32, Format.binary64]
      omega
    exact Binary.value?_ofRatio s (Binary.scaleBy_den_pos m e)
      (hm.trans (Nat.pow_lt_pow_right (by decide) (by decide))) (hwide e hlow hhigh).1
      (hwide e hlow hhigh).2 (Binary.scaleBy_eq m e)

/-! ## Decimals -/

namespace Decimal

variable {d : Decimal}

/-- The number that is meant. -/
def value (d : Decimal) : ℚ := withSign d.negative d.coefficient / 10 ^ d.scale

theorem units_eq_value (d : Decimal) : (d.units : ℚ) = d.value * 10 ^ maxScale := by
  have hpow : (10 : ℚ) ^ maxScale = 10 ^ (maxScale - d.scale) * 10 ^ d.scale := by
    rw [← pow_add, Nat.sub_add_cancel d.scale_le]
  have hsigned : (d.signed : ℚ) = withSign d.negative d.coefficient := by
    rw [signed, withSign]
    split <;> simp
  rw [units, value, hpow, Nat.pow_eq]
  push_cast
  rw [hsigned]
  field_simp

/-- Decimals are compared as numbers. -/
theorem compare_eq_iff {x y : Decimal} : x.compare y = .eq ↔ x.value = y.value := by
  have hpow : (10 : ℚ) ^ maxScale ≠ 0 := pow_ne_zero _ (by decide)
  rw [Decimal.compare, compare_eq_iff_eq, ← Int.cast_inj (α := ℚ), units_eq_value, units_eq_value,
    mul_left_inj' hpow]

theorem value_ofInt (hi : i.natAbs < coefficientLimit) : (ofInt i).value = i := by
  rw [ofInt, ofInt?, ofParts?, dif_pos ⟨hi, Nat.zero_le _⟩, Option.getD_some, value, pow_zero, div_one,
    ← withSign_natAbs i]
  congr 1
  simp only [Bool.and_eq_left_iff_imp, decide_eq_true_eq]
  omega

/-- Without a fraction nothing is added to the integer part. -/
theorem isZero_noFraction :
    ∀ scale < maxScale + 1,
      ((.ofInt 0 : Double) / .ofInt (Nat.pow 10 scale : Nat) : Double).isZero := by
  decide +kernel

/-- The double of a whole decimal is that of its integer part. -/
theorem value?_toDouble_of_whole {c : Nat} (hc : d.coefficient = c * 10 ^ d.scale) :
    d.toDouble.value? = (.ofInt c : Double).value?.map (withSign d.negative) := by
  rw [toDouble]
  split
  case isTrue hs =>
    rw [hs, pow_zero, mul_one] at hc
    rw [signed, hc]
    cases d.negative
    · exact Option.map_id'.symm
    · exact Binary.value?_ofInt_neg c
  case isFalse =>
    have hpos : 0 < Nat.pow 10 d.scale := Nat.pow_pos (by decide)
    have hmod : (d.coefficient : Int) % (Nat.pow 10 d.scale : Nat) = 0 := by
      rw [hc, ← Int.natCast_mod, Nat.pow_eq, Nat.mul_mod_left, Nat.cast_zero]
    have hdiv : (d.coefficient : Int) / (Nat.pow 10 d.scale : Nat) = c := by
      rw [hc, ← Int.natCast_ediv, Nat.pow_eq, Nat.mul_div_cancel _ (Nat.pow_pos (by decide))]
    simp only [hmod, hdiv, isZero_noFraction d.scale (Nat.lt_succ_of_le d.scale_le), if_true]
    cases d.negative
    · exact Option.map_id'.symm
    · exact Binary.value?_neg _

/-- The coefficient of a whole decimal. -/
theorem coefficient_of_whole (hd : d.value = j) :
    d.coefficient = j.natAbs * 10 ^ d.scale ∧ withSign d.negative j.natAbs = d.value := by
  have hpow : (10 : ℚ) ^ d.scale ≠ 0 := pow_ne_zero _ (by decide)
  have hscaled : withSign d.negative d.coefficient = j * 10 ^ d.scale := by
    rw [← hd, value, div_mul_cancel₀ _ hpow]
  have habs : (d.coefficient : ℚ) = j.natAbs * 10 ^ d.scale := by
    rw [Nat.cast_natAbs, Int.cast_abs, ← abs_of_pos (show (0 : ℚ) < 10 ^ d.scale by positivity), ← abs_mul,
      ← hscaled, abs_withSign, Nat.abs_cast]
  refine ⟨by exact_mod_cast habs, ?_⟩
  rw [value, habs, withSign_mul, mul_div_cancel_right₀ _ hpow]

/-- A whole decimal becomes a double that equals a small integer only if it is this integer. -/
theorem toInt?_toDouble (hd : d.value = j) (hi : i.natAbs < 2 ^ 53) :
    d.toDouble.toInt? = some i ↔ d.value = i := by
  obtain ⟨hc, hsign⟩ := coefficient_of_whole hd
  rw [Binary.toInt?_eq_some, value?_toDouble_of_whole hc]
  rcases Nat.lt_or_ge j.natAbs (2 ^ 53) with hj | hj
  · rw [Binary.value?_ofInt (i := (j.natAbs : Nat)) hj, Option.map_some, Int.cast_natCast, hsign,
      Option.some_inj]
  · have habs (hle : (2 : ℚ) ^ 53 ≤ |(i : ℚ)|) : False := by
      rw [← Int.cast_abs, ← Nat.cast_natAbs] at hle
      exact absurd hi (not_lt.2 (by exact_mod_cast hle))
    constructor
    · intro h
      obtain ⟨q, hq, hqi⟩ := Option.map_eq_some_iff.1 h
      have hle := Binary.le_value?_ofInt rfl hj hq
      refine (habs ?_).elim
      rw [← hqi, abs_withSign]
      exact hle.trans (le_abs_self q)
    · intro h
      rw [hd, Int.cast_inj] at h
      subst h
      exact absurd hi (not_lt.2 hj)

end Decimal

/-! ## Numbers that are not NaN -/

namespace Binary

variable {g : Format}

theorem isNaN_ofRatio (negative : Bool) (num den : Nat) :
    (ofRatio negative num den : Binary f).isNaN = false := by
  rw [ofRatio_eq]
  split_ifs
  · rfl
  all_goals simp only; split_ifs <;> rfl

theorem isNegative_ofRatio (negative : Bool) (num den : Nat) :
    (ofRatio negative num den : Binary f).isNegative = negative := by
  rw [ofRatio_eq]
  split_ifs
  · rfl
  all_goals simp only; split_ifs <;> rfl

theorem isNaN_convert (x : Binary f) : (x.convert : Binary g).isNaN = x.isNaN := by
  cases x with
  | nan => rfl
  | infinite => rfl
  | finite => exact isNaN_ofRatio _ _ _

/-- A finite number above zero. -/
def isPositive : Binary f → Bool
  | .finite false m _ => 0 < m
  | _ => false

theorem eq_finite_of_isPositive {x : Binary f} (hx : x.isPositive) : ∃ m e, 0 < m ∧ x = .finite false m e := by
  unfold isPositive at hx
  split at hx
  case h_1 m e => exact ⟨m, e, of_decide_eq_true hx, rfl⟩
  case h_2 => cases hx

theorem isNaN_div {x y : Binary f} (hx : x.isNaN = false) (hy : y.isPositive) :
    (x / y).isNaN = false := by
  obtain ⟨n, k, hn, rfl⟩ := eq_finite_of_isPositive hy
  show (Binary.div _ _).isNaN = false
  cases x with
  | nan => cases hx
  | infinite => rfl
  | finite =>
    rw [Binary.div, if_neg hn.ne']
    exact isNaN_ofRatio _ _ _

theorem isNegative_div {x y : Binary f} (hx : x.isNegative = false) (hy : y.isPositive) :
    (x / y).isNegative = false := by
  obtain ⟨n, k, hn, rfl⟩ := eq_finite_of_isPositive hy
  show (Binary.div _ _).isNegative = false
  cases x with
  | nan => rfl
  | infinite s =>
    cases hx
    rfl
  | finite s m e =>
    cases hx
    rw [Binary.div, if_neg hn.ne']
    exact isNegative_ofRatio _ _ _

theorem isNaN_mul {x y : Binary f} (hx : x.isNaN = false) (hy : y.isPositive) :
    (x * y).isNaN = false := by
  obtain ⟨n, k, hn, rfl⟩ := eq_finite_of_isPositive hy
  show (Binary.mul _ _).isNaN = false
  cases x with
  | nan => cases hx
  | infinite s =>
    rw [Binary.mul, if_neg hn.ne']
    rfl
  | finite => exact isNaN_ofRatio _ _ _

/-- Only infinities of different signs have no sum. -/
theorem isNaN_add {x y : Binary f} (hx : x.isNaN = false) (hy : y.isNaN = false)
    (hs : x.isNegative = y.isNegative) : (x + y).isNaN = false := by
  show (Binary.add _ _).isNaN = false
  cases x with
  | nan => cases hx
  | infinite s =>
    cases y with
    | nan => cases hy
    | infinite t =>
      rw [Binary.add, if_pos (show s = t from hs)]
      rfl
    | finite => rfl
  | finite =>
    cases y with
    | nan => cases hy
    | infinite t => rfl
    | finite =>
      rw [Binary.add, ofUnits]
      split_ifs
      · rfl
      · exact isNaN_ofRatio _ _ _

theorem isNaN_roundHalfAway {x : Binary f} (hx : x.isNaN = false) : x.roundHalfAway.isNaN = false := by
  cases x with
  | nan => cases hx
  | infinite => rfl
  | finite => exact isNaN_ofRatio _ _ _

end Binary

namespace Decimal

theorem isPositive_power :
    ∀ scale < maxScale + 1, (.ofInt (Nat.pow 10 scale : Nat) : Double).isPositive := by
  decide +kernel

theorem isNaN_toDouble (d : Decimal) : d.toDouble.isNaN = false := by
  have hpower := isPositive_power d.scale (Nat.lt_succ_of_le d.scale_le)
  have hnumber (n : Int) : (.ofInt n : Double).isNaN = false := Binary.isNaN_ofRatio _ _ _
  have hsign (n : Nat) : (.ofInt n : Double).isNegative = false := Binary.isNegative_ofRatio _ _ _
  have hsum (m n : Nat) :
      ((.ofInt m + .ofInt n / .ofInt (Nat.pow 10 d.scale : Nat) : Double)).isNaN = false :=
    Binary.isNaN_add (hnumber m) (Binary.isNaN_div (hnumber n) hpower)
      ((hsign m).trans (Binary.isNegative_div (hsign n) hpower).symm)
  have hneg {x : Double} (hx : x.isNaN = false) : (-x).isNaN = false := by
    cases x with
    | nan => cases hx
    | infinite | finite => rfl
  have hite {c : Prop} [Decidable c] {x y : Double} (hx : x.isNaN = false) (hy : y.isNaN = false) :
      (if c then x else y).isNaN = false := by
    split
    · exact hx
    · exact hy
  have hmagnitude (m n : Nat) :
      (((.ofInt m + .ofInt n / .ofInt (Nat.pow 10 d.scale : Nat) : Double) *
        .ofInt (Nat.pow 10 d.scale : Nat)).roundHalfAway / .ofInt (Nat.pow 10 d.scale : Nat)).isNaN = false :=
    Binary.isNaN_div (Binary.isNaN_roundHalfAway (Binary.isNaN_mul (hsum m n) hpower)) hpower
  exact hite (hnumber _) (hite (hneg (hite (hnumber _) (hmagnitude _ _))) (hite (hnumber _) (hmagnitude _ _)))

end Decimal

end XPath.Number
