import XPath.Atomic.Compare

/-!
# Equality of atomic values

Deep equality of atomic values and the identity of map keys do not depend on which of the two values
comes first: whatever the numbers of a pair are compared as, it is the same for both of them. Every
value equals itself, NaN included.
-/

namespace XPath

open Number

theorem Number.Binary.equal_comm {f : Format} (x y : Binary f) : x.equal y = y.equal x := by
  rw [Bool.eq_iff_iff]
  cases x <;> cases y <;>
    simp only [Binary.equal, Binary.compare, decide_eq_true_eq, Option.some.injEq, reduceCtorEq,
      Std.compare_eq_iff_eq]
  case infinite.infinite s t => cases s <;> cases t <;> simp
  case infinite.finite s _ _ _ => cases s <;> simp
  case finite.infinite _ _ _ s => cases s <;> simp
  case finite.finite => exact eq_comm

theorem Number.Binary.equal_self {f : Format} {x : Binary f} (hx : x.isNaN = false) :
    x.equal x := by
  cases x with
  | nan => cases hx
  | infinite s => simp [Binary.equal, Binary.compare]
  | finite s m e => simp [Binary.equal, Binary.compare]

theorem QName.sameName_comm (a b : QName) : a.sameName b = b.sameName a := by
  rw [Bool.eq_iff_iff, sameName_iff, sameName_iff, eq_comm]

namespace Atomic

theorem sameNumber_comm {f : Format} (x y : Binary f) : sameNumber x y = sameNumber y x := by
  rw [sameNumber, sameNumber, Binary.equal_comm, Bool.and_comm x.isNaN]

theorem samePayload_comm (x y : Scalar) : samePayload x y = samePayload y x := by
  cases x <;> cases y <;> first | rfl | skip
  case boolean | string | binary => exact decide_eq_decide.2 eq_comm
  case duration x y =>
    rw [samePayload, samePayload, Decimal.equal, Decimal.equal]
    simp only [eq_comm]

theorem deepEqual_comm (a b : Atomic) : a.deepEqual b = b.deepEqual a := by
  rw [deepEqual, deepEqual, Bool.and_comm b.isFloatLike, Bool.and_comm b.isNumeric]
  split
  · cases a.single? <;> cases b.single? <;> first | rfl | exact sameNumber_comm ..
  · split
    · cases a.double? <;> cases b.double? <;> first | rfl | exact sameNumber_comm ..
    · generalize a.scalar = x, b.scalar = y
      cases x <;> cases y <;> first | exact samePayload_comm .. | skip
      case qName x y => exact QName.sameName_comm x y
      case temporal x y =>
        refine Bool.eq_iff_iff.2 ?_
        simp only [Bool.and_eq_true, beq_iff_eq, Time.Temporal.sameInstant, decide_eq_true_eq]
        constructor
        · rintro ⟨⟨hs, hf⟩, hi⟩
          exact ⟨⟨hf ▸ hs, hf.symm⟩, hi.symm⟩
        · rintro ⟨⟨hs, hf⟩, hi⟩
          exact ⟨⟨hf ▸ hs, hf.symm⟩, hi.symm⟩

theorem sameKey_comm (a b : Atomic) : a.sameKey b = b.sameKey a := by
  rw [sameKey, sameKey]
  cases a.asDecimal? <;> cases b.asDecimal? <;> first | exact deepEqual_comm .. | skip
  exact decide_eq_decide.2 eq_comm

/-! ## Every value equals itself -/

theorem sameNumber_self {f : Format} (x : Binary f) : sameNumber x x := by
  rw [sameNumber]
  cases hx : x.isNaN with
  | true => simp
  | false => simp [Binary.equal_self hx]

theorem double?_of_isNumeric {a : Atomic} (ha : a.isNumeric) : ∃ d, a.double? = some d := by
  obtain ⟨type, scalar, fits⟩ := a
  cases scalar <;> first | exact ⟨_, rfl⟩ | cases ha

theorem asDecimal?_cases {a : Atomic} {x : Number.Decimal} (hx : a.asDecimal? = some x) :
    (∃ i, a.scalar = .integer i ∧ x = .ofInt i) ∨ a.scalar = .decimal x := by
  rw [asDecimal?] at hx
  split at hx
  · next i hi => exact .inl ⟨i, hi, (Option.some.inj hx).symm⟩
  · next d hd => exact .inr (Option.some.inj hx ▸ hd)
  · cases hx

theorem single?_of_isFloatLike {a : Atomic} (ha : a.isFloatLike) : ∃ x, a.single? = some x := by
  obtain ⟨type, scalar, fits⟩ := a
  cases scalar <;> first | exact ⟨_, rfl⟩ | cases ha

/-- The types of dates and times have primitive types whose values can be deep-equal. -/
theorem comparable_of_temporal {t : ItemType} {x : Time.Temporal}
    (ht : (Scalar.temporal x).fits t = true) :
    (t.primitive?.filter isComparableMoment).isSome := by
  simp only [Scalar.fits, Bool.or_eq_true, decide_eq_true_eq] at ht
  obtain (((((((rfl | rfl) | rfl) | rfl) | rfl) | rfl) | rfl) | rfl) | rfl := ht <;> rfl

/-- Dates and times of one type are deep-equal if their instants are at the same place in the order. -/
theorem deepEqual_temporals {a b : Atomic} {t u : Time.Temporal} (ha : a.scalar = .temporal t)
    (hb : b.scalar = .temporal u) (htype : a.type.primitive? = b.type.primitive?) :
    a.deepEqual b = t.sameInstant u := by
  have hsome := comparable_of_temporal (ha ▸ a.fits)
  rw [htype] at hsome
  simp [deepEqual, isFloatLike, isNumeric, ha, hb, htype, hsome]

theorem canCompare_of_hasInstant {a b : Atomic} (ha : a.hasInstant) (hb : b.hasInstant) :
    a.canCompare b := by
  rw [canCompare, ha, hb]
  split <;> simp

/-- Dates and times of one type can be compared if both have instants. -/
theorem canCompare_temporals {a b : Atomic} {t u : Time.Temporal} (ha : a.scalar = .temporal t)
    (hb : b.scalar = .temporal u) :
    a.canCompare b ↔ (a.type.primitive? = b.type.primitive? → a.hasInstant ∧ b.hasInstant) := by
  simp only [canCompare, ha, hb, Bool.or_eq_true, bne_iff_ne, Bool.and_eq_true]
  exact Decidable.imp_iff_not_or.symm

/-- Every value is deep-equal to itself. -/
theorem deepEqual_self (a : Atomic) : a.deepEqual a := by
  rw [deepEqual]
  split
  case isTrue h =>
    obtain ⟨x, hx⟩ := single?_of_isFloatLike (Bool.and_self _ ▸ h)
    rw [hx]
    exact sameNumber_self x
  case isFalse =>
    split
    case isTrue h =>
      obtain ⟨x, hx⟩ := double?_of_isNumeric (Bool.and_self _ ▸ h)
      rw [hx]
      exact sameNumber_self x
    case isFalse h =>
      obtain ⟨type, scalar, fits⟩ := a
      cases scalar with
      | integer | decimal | float | double => exact absurd rfl h
      | qName x => exact (QName.sameName_iff x x).2 rfl
      | temporal x => simp [comparable_of_temporal fits, Time.Temporal.sameInstant]
      | boolean | string | duration | binary => simp [samePayload, Decimal.equal]

/-- Every value is the same key as itself. -/
theorem sameKey_self (a : Atomic) : a.sameKey a := by
  rw [sameKey]
  cases a.asDecimal? with
  | none => exact a.deepEqual_self
  | some x => exact decide_eq_true rfl

end Atomic

end XPath
