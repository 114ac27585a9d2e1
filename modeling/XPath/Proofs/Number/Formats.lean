import Mathlib.Algebra.Order.Field.Basic
import Mathlib.Data.Rat.Cast.Order
import Mathlib.Tactic.Positivity
import Mathlib.Tactic.Ring
import XPath.Number.Conversion
import XPath.Number.Numeral

/-!
# Numbers of a format

Rounding a quotient gives a number of the format (`Binary.inFormat_ofRatio`), so every operation and
every reader of binary numbers does.
-/

namespace XPath.Number

open XPath.Text

variable {f g : Format} {num den m n : Nat} {e : Int}

/-- There are exponents for the numbers of the format. -/
def Format.IsProper (f : Format) : Prop := f.leastExponent ≤ f.greatestExponent

theorem Format.isProper_binary64 : Format.binary64.IsProper :=
  show Format.binary64.leastExponent ≤ Format.binary64.greatestExponent by decide

theorem Format.isProper_binary32 : Format.binary32.IsProper :=
  show Format.binary32.leastExponent ≤ Format.binary32.greatestExponent by decide

namespace Binary

/-- The mantissa and the exponent are within the bounds of the format. -/
def InFormat : Binary f → Prop
  | .finite _ m e => m < 2 ^ f.precision ∧ f.leastExponent ≤ e ∧ e ≤ f.greatestExponent
  | _ => True

theorem inFormat_zero (hf : f.IsProper) (negative : Bool) : (zero negative : Binary f).InFormat :=
  ⟨Nat.pow_pos (by decide), le_rfl, hf⟩

/-! ## Rounding -/

/-- A numerator and a denominator of the quotient by `2 ^ e`. -/
def shifted (num den : Nat) (e : Int) : Nat × Nat :=
  if e < 0 then (num * Nat.pow 2 e.natAbs, den) else (num, den * Nat.pow 2 e.natAbs)

theorem shifted_lt_iff (num den bound : Nat) (e : Int) :
    (shifted num den e).1 < bound * (shifted num den e).2 ↔ (num : ℚ) < bound * den * 2 ^ e := by
  rw [shifted]
  split
  case isTrue he =>
    have hpow : (2 : ℚ) ^ e * 2 ^ e.natAbs = 1 := by
      rw [← zpow_natCast, ← zpow_add₀ (by decide), show e + (e.natAbs : Int) = 0 by omega, zpow_zero]
    have hpos : (0 : ℚ) < 2 ^ e.natAbs := by positivity
    rw [← mul_lt_mul_iff_left₀ hpos, mul_assoc (_ * _), hpow, mul_one]
    exact_mod_cast Iff.rfl
  case isFalse he =>
    have hpow : (2 : ℚ) ^ e = 2 ^ e.natAbs := by
      rw [← zpow_natCast, show (e.natAbs : Int) = e by omega]
    rw [hpow, mul_assoc]
    exact_mod_cast Iff.rfl

theorem leadingExponent_eq (num den : Nat) :
    leadingExponent num den =
      if (shifted num den (num.log2 - den.log2)).2 ≤ (shifted num den (num.log2 - den.log2)).1 then
        (num.log2 : Int) - den.log2
      else num.log2 - den.log2 - 1 := rfl

/-- A quotient is below the power of two after its leading bit. -/
theorem lt_leadingExponent (num : Nat) (hd : 0 < den) :
    (num : ℚ) < den * 2 ^ (leadingExponent num den + 1) := by
  have hnum : (num : ℚ) < 2 ^ (num.log2 + 1) := by exact_mod_cast Nat.lt_log2_self
  have hden : (2 : ℚ) ^ den.log2 ≤ den := by exact_mod_cast Nat.log2_self_le hd.ne'
  have hcompare := shifted_lt_iff num den 1 (num.log2 - den.log2)
  rw [Nat.one_mul, Nat.cast_one, one_mul] at hcompare
  rw [leadingExponent_eq]
  split
  case isTrue =>
    calc (num : ℚ) < 2 ^ (num.log2 + 1) := hnum
      _ = 2 ^ den.log2 * 2 ^ ((num.log2 : Int) - den.log2 + 1) := by
        rw [← zpow_natCast, ← zpow_natCast, ← zpow_add₀ (by decide)]
        congr 1
        push_cast
        ring
      _ ≤ den * 2 ^ ((num.log2 : Int) - den.log2 + 1) :=
        mul_le_mul_of_nonneg_right hden (zpow_nonneg (by decide) _)
  case isFalse hlt =>
    rw [sub_add_cancel]
    exact hcompare.1 (not_le.1 hlt)

theorem roundDiv_le_of_lt (tie : Tie) {bound : Nat} (hd : 0 < den) (hn : num < bound * den) :
    roundDiv tie num den ≤ bound := by
  have hq : num / den < bound := (Nat.div_lt_iff_lt_mul hd).2 hn
  have hnext : roundDiv tie num den ≤ num / den + 1 := by
    unfold roundDiv
    cases tie <;> simp only <;> split_ifs <;> omega
  omega

/-- A mantissa that was rounded up to the next power of two is halved, and an exponent above the
greatest one gives an infinity. -/
theorem ofRatio_eq (negative : Bool) (num den : Nat) :
    (ofRatio negative num den : Binary f) =
      if num = 0 then zero negative
      else
        let e := max f.leastExponent (leadingExponent num den - (f.precision - 1))
        let m := roundDiv .toEven (shifted num den e).1 (shifted num den e).2
        if m = 2 ^ f.precision then
          if f.greatestExponent < e + 1 then .infinite negative else .finite negative (m / 2) (e + 1)
        else if f.greatestExponent < e then .infinite negative else .finite negative m e := by
  rw [ofRatio]
  split
  · rfl
  · simp only [shifted, Nat.pow_eq]
    split_ifs <;> rfl

/-- A rounded quotient is a number of the format. -/
theorem inFormat_ofRatio (hf : f.IsProper) (negative : Bool) (num : Nat) (hd : 0 < den) :
    (ofRatio negative num den : Binary f).InFormat := by
  rw [ofRatio_eq]
  split
  case isTrue => exact inFormat_zero hf negative
  case isFalse =>
    generalize he : max f.leastExponent (leadingExponent num den - (f.precision - 1)) = e
    have hle : f.leastExponent ≤ e := he ▸ le_max_left ..
    have hlt : (num : ℚ) < (2 ^ f.precision : Nat) * den * 2 ^ e := by
      calc (num : ℚ) < den * 2 ^ (leadingExponent num den + 1) := lt_leadingExponent num hd
        _ ≤ den * 2 ^ (f.precision + e) := by
          refine mul_le_mul_of_nonneg_left (zpow_le_zpow_right₀ (by norm_num) ?_) (by positivity)
          have := he ▸ le_max_right f.leastExponent (leadingExponent num den - (f.precision - 1))
          omega
        _ = (2 ^ f.precision : Nat) * den * 2 ^ e := by
          rw [zpow_add₀ (by decide), zpow_natCast]
          push_cast
          ring
    have hshifted := (shifted_lt_iff num den (2 ^ f.precision) e).2 hlt
    have hpos : 0 < (shifted num den e).2 := by
      by_contra h
      rw [Nat.eq_zero_of_not_pos h, Nat.mul_zero] at hshifted
      exact absurd hshifted (Nat.not_lt_zero _)
    have hm := roundDiv_le_of_lt .toEven hpos hshifted
    have hpower : 0 < 2 ^ f.precision := Nat.pow_pos (by decide)
    simp only
    split
    · split
      · trivial
      · exact ⟨by omega, by omega, by omega⟩
    · split
      · trivial
      · exact ⟨by omega, hle, by omega⟩

/-! ## Operations -/

theorem scaleBy_den_pos (n : Nat) (e : Int) : 0 < (scaleBy n e).2 := by
  rw [scaleBy]
  split
  · exact Nat.pow_pos (by decide)
  · exact Nat.one_pos

theorem inFormat_convert (hg : g.IsProper) (x : Binary f) : (x.convert : Binary g).InFormat := by
  cases x with
  | nan => trivial
  | infinite s => trivial
  | finite s m e => exact inFormat_ofRatio hg s _ (scaleBy_den_pos m e)

theorem inFormat_ofInt (hf : f.IsProper) (n : Int) : (ofInt n : Binary f).InFormat :=
  inFormat_ofRatio hf _ _ Nat.one_pos

theorem inFormat_neg {x : Binary f} (hx : x.InFormat) : (-x).InFormat := by
  cases x with
  | nan => trivial
  | infinite s => trivial
  | finite s m e => exact hx

theorem inFormat_div (hf : f.IsProper) (x y : Binary f) : (x / y).InFormat := by
  show (Binary.div x y).InFormat
  cases x with
  | nan => trivial
  | infinite s => cases y <;> trivial
  | finite s m e =>
    cases y with
    | nan => trivial
    | infinite t => exact inFormat_zero hf _
    | finite t n k =>
      show (if n = 0 then (if m = 0 then nan else infinite (s != t))
        else ofRatio (s != t) ((scaleBy m e).1 * (scaleBy n k).2)
          ((scaleBy m e).2 * (scaleBy n k).1)).InFormat
      split
      · split <;> trivial
      · next hn =>
        refine inFormat_ofRatio hf _ _ (Nat.mul_pos (scaleBy_den_pos m e) ?_)
        rw [scaleBy]
        split
        · exact Nat.pos_of_ne_zero hn
        · exact Nat.mul_pos (Nat.pos_of_ne_zero hn) (Nat.pow_pos (by decide))

end Binary

/-! ## Conversions and readers -/

theorem Single.inFormat_widen (x : Single) : x.widen.InFormat :=
  Binary.inFormat_convert Format.isProper_binary64 x

theorem Double.inFormat_narrow (x : Double) : x.narrow.InFormat :=
  Binary.inFormat_convert Format.isProper_binary32 x

theorem Decimal.inFormat_toDouble (d : Decimal) : d.toDouble.InFormat := by
  have hf := Format.isProper_binary64
  have hsigned : ∀ x : Double, x.InFormat → (if d.negative then -x else x).InFormat := by
    intro x hx
    split
    · exact Binary.inFormat_neg hx
    · exact hx
  rw [Decimal.toDouble]
  split
  · exact Binary.inFormat_ofInt hf _
  · refine hsigned _ ?_
    split
    · exact Binary.inFormat_ofInt hf _
    · exact Binary.inFormat_div hf _ _

theorem inFormat_ofScientific (hf : f.IsProper) (negative : Bool) (n : Nat) (e : Int) :
    (ofScientific f negative n e).InFormat := by
  rw [ofScientific]
  simp only
  split_ifs
  · exact Binary.inFormat_zero hf negative
  · trivial
  · exact Binary.inFormat_zero hf negative
  · exact Binary.inFormat_ofRatio hf _ _ (Nat.pow_pos (by decide))
  · exact Binary.inFormat_ofRatio hf _ _ Nat.one_pos

theorem readScientific?_inFormat (hf : f.IsProper) {s : List Char} {x : Binary f}
    (hx : readScientific? f s = some x) : x.InFormat := by
  rw [readScientific?] at hx
  split at hx
  · obtain ⟨n, -, rfl⟩ := Option.map_eq_some_iff.1 hx
    exact inFormat_ofScientific hf _ _ _
  · split at hx
    · cases hx
      exact inFormat_ofScientific hf _ _ _
    · cases hx

end XPath.Number
