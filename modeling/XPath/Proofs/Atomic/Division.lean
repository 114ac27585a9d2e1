import XPath.Atomic.Arithmetic
import XPath.Proofs.Atomic.Equality
import XPath.Proofs.Atomic.ValueSpace
import XPath.Proofs.Number.Division

/-!
# Integer division and remainders

On exact operands the quotient of an integer division is the exact one truncated toward zero, if it
fits, and the remainder is what that quotient leaves (`Atomic.modulo_integerDivide`). There are three
exceptions. A quotient of decimals is rounded before it is truncated, so one just below a whole number
is taken for that number; the remainder of the least integer by minus one, a zero, is refused like the
quotient (`Atomic.modulo_integerDivide_inexact`); and the remainder of decimals may lose a word.
-/

namespace XPath.Atomic

open Number

variable {a b : Atomic} {x y : Number.Decimal} {i j : Int}

/-! ## Exact operands -/

theorem not_floating (hx : a.asDecimal? = some x) :
    a.isInstanceOf .double = false ∧ a.isInstanceOf .float = false := by
  have hfits := a.fits
  rcases asDecimal?_cases hx with ⟨i, hi, -⟩ | hd
  · rw [hi] at hfits
    replace hfits : a.type.isSubtypeOf .integer := hfits
    rw [isInstanceOf, isInstanceOf]
    revert hfits
    cases a.type <;> decide
  · rw [hd] at hfits
    rw [isInstanceOf, isInstanceOf, show a.type = .decimal from of_decide_eq_true hfits]
    decide

/-- Exact operands are computed as integers, or else as decimals. -/
theorem arithmetic_of_exact (op : Operator) (hx : a.asDecimal? = some x)
    (hy : b.asDecimal? = some y) :
    arithmetic op a b =
      match a.scalar, b.scalar with
      | .integer i, .integer j => (onIntegers op i j).getD (onDecimals op x y)
      | _, _ => onDecimals op x y := by
  obtain ⟨hdouble, hfloat⟩ := not_floating hx
  obtain ⟨hdouble', hfloat'⟩ := not_floating hy
  rw [arithmetic, hx, hy]
  exact if_neg (by simp [hdouble, hdouble', hfloat, hfloat'])

/-! ## Decimals -/

theorem onDecimals_modulo (hy : y.value ≠ 0) (hr : x.HasRemainder y) :
    ∃ z, onDecimals .modulo x y = .ok (decimal z) ∧ z.units = x.units.tmod y.units := by
  have hzero : ¬y.isZero := mt Decimal.isZero_iff.1 hy
  obtain ⟨z, hz, hunits⟩ := Decimal.exists_rem? hzero hr
  refine ⟨z, ?_, hunits⟩
  rw [onDecimals, if_neg hzero, hz]
  rfl

theorem onDecimals_integerDivide (hy : y.value ≠ 0) (hq : ¬JustBelow |x.value / y.value|) :
    onDecimals .integerDivide x y = checkedInteger (truncated (x.value / y.value)) := by
  have hzero : ¬y.isZero := mt Decimal.isZero_iff.1 hy
  have htruncate := Decimal.truncate_div? hzero hq
  rw [Decimal.truncated_value_div, onDecimals, if_neg hzero]
  cases hdiv : x.div? y with
  | some z =>
    rw [hdiv] at htruncate
    simp only at htruncate ⊢
    rw [htruncate]
  | none =>
    -- A quotient too large for a decimal is too large for an integer.
    rw [hdiv] at htruncate
    have hfits : ¬fitsInteger (x.units.tdiv y.units) := by
      have hlimit : coefficientLimit = 2 ^ 96 := rfl
      rw [fitsInteger_iff]
      simp only at htruncate
      omega
    rw [checkedInteger, if_neg hfits]

/-! ## Integers -/

theorem fitsInteger_tmod (hj : fitsInteger j) (h0 : j ≠ 0) : fitsInteger (i.tmod j) := by
  have hlt : (i.tmod j).natAbs < j.natAbs := by
    rw [Int.natAbs_tmod]
    exact Nat.mod_lt _ (Int.natAbs_pos.2 h0)
  rw [fitsInteger_iff] at hj ⊢
  omega

theorem onIntegers_modulo (hj : fitsInteger j) (h0 : j ≠ 0)
    (hleast : ¬(i = minInteger ∧ j = -1)) :
    onIntegers .modulo i j = some (.ok (integer (i.tmod j))) := by
  rw [onIntegers, if_neg h0, if_neg hleast, checkedInteger, if_pos (fitsInteger_tmod hj h0)]

theorem natAbs_lt_of_fitsInteger (hi : fitsInteger i) : i.natAbs < coefficientLimit := by
  have hlimit : coefficientLimit = 2 ^ 96 := rfl
  have := fitsInteger_iff.1 hi
  omega

theorem units_ofInt (hi : fitsInteger i) : (Decimal.ofInt i).units = 10 ^ maxScale * i := by
  have h := Decimal.units_eq_value (.ofInt i)
  rw [Decimal.value_ofInt (natAbs_lt_of_fitsInteger hi), mul_comm] at h
  exact_mod_cast h

/-! ## Quotients and remainders -/

/-- The remainder is computed exactly: integers are not the least one and minus one, and of other
operands no word is lost. -/
def HasModulo (a b : Atomic) (x y : Number.Decimal) : Prop :=
  match a.scalar, b.scalar with
  | .integer i, .integer j => ¬(i = minInteger ∧ j = -1)
  | _, _ => x.HasRemainder y

/-- The whole quotient is computed exactly: of integers always, and otherwise unless the quotient
lies just below a whole number. -/
def HasQuotient (a b : Atomic) (x y : Number.Decimal) : Prop :=
  match a.scalar, b.scalar with
  | .integer _, .integer _ => True
  | _, _ => ¬JustBelow |x.value / y.value|

/-- Two exact operands are both integers, or computed as decimals. -/
theorem exact_cases (ha : a.InSpace) (hb : b.InSpace) (hx : a.asDecimal? = some x)
    (hy : b.asDecimal? = some y) :
    (∃ i j, fitsInteger i ∧ fitsInteger j ∧ x = .ofInt i ∧ y = .ofInt j ∧
      (∀ op, arithmetic op a b = (onIntegers op i j).getD (onDecimals op x y)) ∧
      (HasModulo a b x y → ¬(i = minInteger ∧ j = -1))) ∨
    ((∀ op, arithmetic op a b = onDecimals op x y) ∧ (HasModulo a b x y → x.HasRemainder y) ∧
      (HasQuotient a b x y → ¬JustBelow |x.value / y.value|)) := by
  simp only [arithmetic_of_exact _ hx hy, HasModulo, HasQuotient]
  rw [InSpace] at ha hb
  rcases asDecimal?_cases hx with ⟨i, hi, rfl⟩ | hi <;>
    rcases asDecimal?_cases hy with ⟨j, hj, rfl⟩ | hj <;> simp only [hi, hj] at ha hb ⊢
  · exact .inl ⟨i, j, (hasInteger_iff.1 ha).1, (hasInteger_iff.1 hb).1, rfl, rfl, fun _ => rfl, id⟩
  · exact .inr ⟨fun _ => trivial, id, id⟩
  · exact .inr ⟨fun _ => trivial, id, id⟩
  · exact .inr ⟨fun _ => trivial, id, id⟩

/-- Quotients and remainders of exact operands fit together. Both refuse a zero divisor. Otherwise
the remainder is smaller than the divisor and not of the sign opposite to the dividend, the quotient
is the exact one truncated toward zero, refused only if it does not fit, and the dividend is the
quotient times the divisor and the remainder. -/
theorem modulo_integerDivide (a b : Atomic) (x y : Number.Decimal) (ha : a.InSpace)
    (hb : b.InSpace) (hx : a.asDecimal? = some x) (hy : b.asDecimal? = some y) :
    (y.value = 0 → arithmetic .modulo a b = .error divisionByZero ∧
      arithmetic .integerDivide a b = .error divisionByZero) ∧
    (y.value ≠ 0 → HasModulo a b x y →
      ∃ r z, arithmetic .modulo a b = .ok r ∧ r.asDecimal? = some z ∧ |z.value| < |y.value| ∧
        0 ≤ x.value * z.value ∧ x.value = truncated (x.value / y.value) * y.value + z.value) ∧
    (y.value ≠ 0 → HasQuotient a b x y →
      arithmetic .integerDivide a b = checkedInteger (truncated (x.value / y.value))) := by
  rcases exact_cases ha hb hx hy with
    ⟨i, j, hi, hj, rfl, rfl, hop, hleast⟩ | ⟨hop, hremainder, hquotient⟩
  · have hvalue : ∀ {i}, fitsInteger i → (Decimal.ofInt i).value = i := fun hi =>
      Decimal.value_ofInt (natAbs_lt_of_fitsInteger hi)
    rw [hop, hop, hvalue hj]
    refine ⟨fun h0 => ?_, fun h0 hm => ?_, fun h0 _ => ?_⟩
    · have h0 : j = 0 := Int.cast_eq_zero.1 h0
      simp only [onIntegers, if_pos h0]
      exact ⟨rfl, rfl⟩
    · have h0' : j ≠ 0 := Int.cast_ne_zero.1 h0
      have hunits : (Decimal.ofInt (i.tmod j)).units =
          (Decimal.ofInt i).units.tmod (Decimal.ofInt j).units := by
        rw [units_ofInt hi, units_ofInt hj, units_ofInt (fitsInteger_tmod hj h0'),
          Int.mul_tmod_mul_of_pos _ _ (by positivity)]
      have hvalues := Decimal.value_of_units_tmod (by rwa [hvalue hj]) hunits
      rw [onIntegers_modulo hj h0' (hleast hm)]
      rw [hvalue hj] at hvalues
      exact ⟨_, _, rfl, rfl, hvalues⟩
    · have h0 : j ≠ 0 := Int.cast_ne_zero.1 h0
      rw [hvalue hi, truncated_div, onIntegers, if_neg h0]
      rfl
  · rw [hop, hop]
    refine ⟨fun h0 => ?_, fun h0 hm => ?_, fun h0 hq => onDecimals_integerDivide h0 (hquotient hq)⟩
    · have hzero : y.isZero := Decimal.isZero_iff.2 h0
      rw [onDecimals, onDecimals, if_pos hzero, if_pos hzero]
      exact ⟨rfl, rfl⟩
    · obtain ⟨z, hz, hunits⟩ := onDecimals_modulo h0 (hremainder hm)
      exact ⟨_, z, hz, rfl, Decimal.value_of_units_tmod h0 hunits⟩

/-- Three and a half by minus two: the quotient is minus one, and one and a half are left. -/
theorem modulo_integerDivide_halves :
    let x : Number.Decimal := ⟨false, 35, 1, by decide, by decide⟩
    arithmetic .integerDivide (decimal x) (integer (-2)) = checkedInteger (truncated (x.value / -2)) ∧
      ∃ r z, arithmetic .modulo (decimal x) (integer (-2)) = .ok r ∧ r.asDecimal? = some z ∧
        |z.value| < 2 ∧ 0 ≤ x.value * z.value ∧
        x.value = truncated (x.value / -2) * -2 + z.value := by
  intro x
  have htwo : (Decimal.ofInt (-2)).value = -2 := by
    rw [Decimal.value_ofInt (by decide)]
    norm_num
  have hquotient : ¬JustBelow |x.value / (Decimal.ofInt (-2)).value| := by
    rw [Decimal.abs_value_div, justBelow_div_iff (by decide +kernel)]
    decide +kernel
  obtain ⟨-, hmodulo, hdivide⟩ := modulo_integerDivide (decimal x) (integer (-2)) x _ trivial
    ⟨by decide, trivial⟩ rfl rfl
  rw [htwo] at hmodulo hdivide
  obtain ⟨r, z, hr, hz, hlt, hsign, hsum⟩ := hmodulo (by norm_num) (.inr (by decide +kernel))
  refine ⟨hdivide (by norm_num) ?_, r, z, hr, hz, by simpa using hlt, hsign, hsum⟩
  exact hquotient

/-- A quotient of decimals just below one is taken for one, and one just below the least number that is
no integer is refused. The remainder of the least integer by minus one is refused though it is zero, as
it is of decimals. -/
theorem modulo_integerDivide_inexact :
    let whole (n : Int) : Atomic := decimal (.ofInt n)
    (arithmetic .integerDivide (whole 49999999999999999999999999999)
        (whole 50000000000000000000000000000) = .ok (integer 1) ∧
      Int.tdiv 49999999999999999999999999999 50000000000000000000000000000 = 0) ∧
    (arithmetic .integerDivide (whole 46116860184273879039999999999) (whole 5000000000) =
        .error overflow ∧
      Int.tdiv 46116860184273879039999999999 5000000000 = maxInteger) ∧
    arithmetic .modulo (integer minInteger) (integer (-1)) = .error overflow ∧
      minInteger.tmod (-1) = 0 ∧
      arithmetic .modulo (whole minInteger) (integer (-1)) = .ok (decimal .zero) := by
  decide +kernel

end XPath.Atomic
