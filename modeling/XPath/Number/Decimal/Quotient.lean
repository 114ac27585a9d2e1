import XPath.Number.Decimal

/-!
# Quotients and remainders of decimals

A quotient is developed in groups of up to nine places until nothing is left or the coefficient is
full. Its value is the exact quotient rounded to that scale. The scale itself matters where a
decimal becomes a double, so the rules for it are kept here: a quotient of coefficients that divide
keeps its zeros, any other loses most of those that the last group has brought.
-/

namespace XPath.Number

namespace Decimal

/-- The largest number of places, at most `bound`, that a coefficient can grow by. -/
def room (coefficient : Nat) : Nat → Nat
  | 0 => 0
  | n + 1 =>
    if coefficient * Nat.pow 10 (n + 1) < coefficientLimit then n + 1 else room coefficient n

theorem room_le (coefficient bound : Nat) : room coefficient bound ≤ bound := by
  induction bound with
  | zero => exact Nat.le_refl 0
  | succ n ih =>
    rw [room]
    split
    · exact Nat.le_refl (n + 1)
    · exact Nat.le_succ_of_le ih

/-- The places of the next group, when `left` are left up to the largest scale. Once the division
is exact, only those up to scale zero are still needed. -/
def nextPlaces (num den left : Nat) : Nat :=
  if num % den = 0 then min 9 (left - maxScale) else room (num / den) (min 9 left)

theorem nextPlaces_le (num den left : Nat) : nextPlaces num den left ≤ left := by
  have h := room_le (num / den) (min 9 left)
  unfold nextPlaces
  split <;> omega

/-- How many of the `left` places stay unused when `num / den` has been developed. -/
def unusedPlaces (num den left : Nat) : Nat :=
  let places := nextPlaces num den left
  if 0 < places then unusedPlaces (num * Nat.pow 10 places) den (left - places) else left
termination_by left
decreasing_by
  have h := nextPlaces_le num den left
  omega

/-- One group of `n` places less, if the scale has it and it holds zeros only. -/
def dropZeros (d : Decimal) (n : Nat) : Decimal :=
  if n ≤ d.scale ∧ d.coefficient % Nat.pow 10 n = 0 then
    ⟨d.negative, d.coefficient / Nat.pow 10 n, d.scale - n,
      Nat.lt_of_le_of_lt (Nat.div_le_self _ _) d.coefficient_lt,
      Nat.le_trans (Nat.sub_le _ _) d.scale_le⟩
  else d

theorem units_dropZeros (d : Decimal) (n : Nat) : (d.dropZeros n).units = d.units := by
  unfold dropZeros
  split
  case isTrue h =>
    obtain ⟨k, hk⟩ := Nat.dvd_of_mod_eq_zero h.2
    have hs : maxScale - (d.scale - n) = n + (maxScale - d.scale) := by
      have := d.scale_le
      omega
    have hp : 0 < Nat.pow 10 n := Nat.pow_pos (by decide)
    have hc : d.coefficient / Nat.pow 10 n = k := by rw [hk, Nat.mul_div_cancel_left k hp]
    have hn : ((d.coefficient / Nat.pow 10 n : Nat) : Int) *
        (Nat.pow 10 (n + (maxScale - d.scale)) : Nat) =
        (d.coefficient : Int) * (Nat.pow 10 (maxScale - d.scale) : Nat) := by
      rw [hc, hk]
      norm_cast
      show k * 10 ^ (n + (maxScale - d.scale)) = 10 ^ n * k * 10 ^ (maxScale - d.scale)
      rw [Nat.pow_add, ← Nat.mul_assoc, Nat.mul_comm k]
    unfold units signed
    simp only [hs]
    split
    · rw [Int.neg_mul, Int.neg_mul, hn]
    · exact hn
  case isFalse => rfl

/-- Eight zeros are only looked for in a coefficient whose low 32 bits are clear. -/
def dropEightZeros (d : Decimal) : Decimal :=
  if d.coefficient % Nat.pow 2 32 = 0 then d.dropZeros 8 else d

/-- Drops eight zeros as often as the scale allows, then four, two and one at most once. -/
def dropZeroGroups (d : Decimal) : Decimal :=
  let d := d.dropEightZeros.dropEightZeros.dropEightZeros
  ((d.dropZeros 4).dropZeros 2).dropZeros 1

/-- The zeros dropped do not change the number. -/
theorem units_dropZeroGroups (d : Decimal) : d.dropZeroGroups.units = d.units := by
  have eight (d : Decimal) : d.dropEightZeros.units = d.units := by
    unfold dropEightZeros
    split
    · exact d.units_dropZeros 8
    · rfl
  simp only [dropZeroGroups, units_dropZeros, eight]

/-- No result for a zero divisor. -/
protected def div? (x y : Decimal) : Option Decimal :=
  if y.isZero then none
  else if x.isZero then some zero
  else
    let num := x.coefficient * Nat.pow 10 y.scale
    let den := y.coefficient * Nat.pow 10 x.scale
    let unused := unusedPlaces x.coefficient y.coefficient (maxScale + y.scale - x.scale)
    let quotient := fit? (x.negative != y.negative) num den (maxScale - unused)
    if x.coefficient % y.coefficient = 0 then quotient else quotient.map dropZeroGroups

/-- One step of the long division of a number of up to 128 bits by one of 96. A number that begins
with the divisor's own leading word loses this word. -/
def remainderStep (divisor n : Nat) : Nat :=
  if n / Nat.pow 2 96 = divisor / Nat.pow 2 64 then n % Nat.pow 2 96 % divisor else n % divisor

/-- The remainder by a divisor of 96 bits, word by word: `words` 32-bit words follow the leading
128 bits of `n`. -/
def wordRemainder (divisor n : Nat) : Nat → Nat
  | 0 => remainderStep divisor n
  | words + 1 =>
    let r := wordRemainder divisor (n / Nat.pow 2 32) words
    remainderStep divisor (r * Nat.pow 2 32 + n % Nat.pow 2 32)

/-- The remainder of coefficients. A divisor above 64 bits is first shifted to 96, the dividend
with it. -/
def coefficientRemainder (a b : Nat) : Nat :=
  if b < Nat.pow 2 64 then a % b
  else
    let shift := Nat.pow 2 (95 - Nat.log2 b)
    wordRemainder (b * shift) (a * shift) ((Nat.log2 (a * shift) - 95) / 32) / shift

/-- The remainder of the division truncated toward zero, with the sign of the dividend. A dividend
below the divisor is its own remainder, one equal to it leaves a plain zero. -/
protected def rem? (x y : Decimal) : Option Decimal :=
  if y.isZero then none
  else if x.isZero then some zero
  else
    let scale := max x.scale y.scale
    let a := x.coefficient * Nat.pow 10 (scale - x.scale)
    let b := y.coefficient * Nat.pow 10 (scale - y.scale)
    if a < b then some x
    else if a = b then some zero
    else ofParts? x.negative (coefficientRemainder a b) scale

end Decimal

end XPath.Number
