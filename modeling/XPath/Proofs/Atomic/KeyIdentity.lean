import XPath.Proofs.Atomic.Equality
import XPath.Proofs.Atomic.ValueSpace
import XPath.Proofs.Number.Exactness

/-!
# The identity of map keys

What a key is, apart from its type, is its `identity`: the number, the string, the instant and so on.
Keys are the same if they have the same identity (`Atomic.sameKey_iff`), except that integers and
decimals are rounded beside floats and doubles. As far as no key is rounded, being the same key is
transitive (`Atomic.sameKey_trans`).
-/

namespace XPath

open Number Time

/-! ## Numbers -/

namespace Number

/-- A number, an infinity or NaN. -/
inductive Extended where
  | nan
  | infinite (negative : Bool)
  | finite (q : ℚ)
  deriving DecidableEq

variable {f : Format}

def Binary.extended : Binary f → Extended
  | .nan => .nan
  | .infinite s => .infinite s
  | .finite s m e => .finite (withSign s (m * 2 ^ e))

/-- Numbers of a format are the same if they are the same number or both NaN. -/
theorem Binary.sameNumber_iff {x y : Binary f} (hx : x.InFormat) (hy : y.InFormat) :
    Atomic.sameNumber x y ↔ x.extended = y.extended := by
  cases x with
  | nan => cases y <;> simp [Atomic.sameNumber, equal, compare, isNaN, extended]
  | infinite s =>
    cases y with
    | infinite t => cases s <;> cases t <;> simp [Atomic.sameNumber, equal, compare, isNaN, extended]
    | _ => cases s <;> simp [Atomic.sameNumber, equal, compare, isNaN, extended]
  | finite s m e =>
    have hcompare := compare_eq_iff hx hy (q := withSign s (m * 2 ^ e)) rfl
    have hnan : (finite s m e : Binary f).isNaN = false := rfl
    rw [Atomic.sameNumber, equal, hnan, Bool.false_and, Bool.or_false, decide_eq_true_iff, hcompare]
    cases y <;> simp [value?, extended, eq_comm]

theorem Single.extended_widen {x : Single} (hx : x.InFormat) : x.widen.extended = x.extended := by
  cases x with
  | nan => rfl
  | infinite => rfl
  | finite s m e =>
    have hvalue := Single.value?_widen hx
    generalize Single.widen (.finite s m e) = w at hvalue ⊢
    cases w with
    | nan => cases hvalue
    | infinite => cases hvalue
    | finite s' m' e' => exact congrArg Extended.finite (Option.some.inj hvalue)

end Number

/-! ## Identities -/

namespace Atomic

/-- What a value is as a key. -/
inductive Identity where
  | number (x : Extended)
  | boolean (b : Bool)
  | text (s : String)
  | name (n : ExpandedName)
  | moment (family : Option ItemType) (ordinal : Int)
  | duration (months seconds : Int)
  | octets (bytes : List UInt8)

def identity (a : Atomic) : Identity :=
  match a.scalar with
  | .boolean b => .boolean b
  | .integer i => .number (.finite (Decimal.ofInt i).value)
  | .decimal d => .number (.finite d.value)
  | .float f => .number f.extended
  | .double d => .number d.extended
  | .string s => .text s
  | .qName q => .name q.expanded
  | .temporal t => .moment (a.type.primitive?.filter isComparableMoment) t.instant.ordinal
  | .duration d => .duration d.months d.seconds.units
  | .binary octets => .octets octets

/-- Two values that are not both numbers, or both integers and decimals, or both floats and doubles:
neither of them is rounded beside the other one. -/
def Unmixed (a b : Atomic) : Prop :=
  a.isNumeric → b.isNumeric → (a.asDecimal?.isSome ↔ b.asDecimal?.isSome)

instance (a b : Atomic) : Decidable (Unmixed a b) := inferInstanceAs (Decidable (_ → _ → (_ ↔ _)))

variable {a b c : Atomic}

theorem equal_iff {x y : Number.Decimal} : x.equal y ↔ x.value = y.value := by
  rw [Decimal.equal, decide_eq_true_iff, ← Decimal.compare_eq_iff, Decimal.compare,
    Std.compare_eq_iff_eq]

/-- Keys are the same if they have the same identity. -/
theorem sameKey_iff (ha : a.InSpace) (hb : b.InSpace) (hab : Unmixed a b) :
    a.sameKey b ↔ a.identity = b.identity := by
  obtain ⟨type, scalar, hfits⟩ := a
  obtain ⟨type', scalar', hfits'⟩ := b
  cases scalar <;> cases scalar'
  case integer.integer | integer.decimal | decimal.integer | decimal.decimal =>
    simp only [identity, Identity.number.injEq, Extended.finite.injEq]
    exact equal_iff
  case integer.float | integer.double | decimal.float | decimal.double | float.integer
      | float.decimal | double.integer | double.decimal =>
    exact absurd (hab rfl rfl) (by simp [asDecimal?])
  case float.float x y =>
    simp only [identity, Identity.number.injEq]
    exact Binary.sameNumber_iff ha hb
  case float.double x y =>
    simp only [identity, Identity.number.injEq, ← Single.extended_widen ha]
    exact Binary.sameNumber_iff x.inFormat_widen hb
  case double.float x y =>
    simp only [identity, Identity.number.injEq, ← Single.extended_widen hb]
    exact Binary.sameNumber_iff ha y.inFormat_widen
  case double.double x y =>
    simp only [identity, Identity.number.injEq]
    exact Binary.sameNumber_iff ha hb
  case boolean.boolean | string.string | binary.binary =>
    simp only [identity, Identity.boolean.injEq, Identity.text.injEq, Identity.octets.injEq]
    exact decide_eq_true_iff
  case qName.qName x y =>
    simp only [identity, Identity.name.injEq]
    exact x.sameName_iff y
  case temporal.temporal x y =>
    simp only [identity, Identity.moment.injEq]
    show ((type.primitive?.filter isComparableMoment).isSome &&
      type.primitive?.filter isComparableMoment == type'.primitive?.filter isComparableMoment &&
        decide (x.instant.ordinal = y.instant.ordinal)) = true ↔ _
    rw [comparable_of_temporal hfits, Bool.true_and, Bool.and_eq_true, beq_iff_eq, decide_eq_true_iff]
  case duration.duration x y =>
    simp only [identity, Identity.duration.injEq]
    show (decide (x.months = y.months) && decide (x.seconds.units = y.seconds.units)) = true ↔ _
    rw [Bool.and_eq_true, decide_eq_true_iff, decide_eq_true_iff]
  all_goals exact iff_of_false (fun h => Bool.false_ne_true h) fun h => by cases h

/-- Only numbers have the identity of a number. -/
theorem isNumeric_congr (hab : a.identity = b.identity) : a.isNumeric = b.isNumeric := by
  obtain ⟨type, scalar, hfits⟩ := a
  obtain ⟨type', scalar', hfits'⟩ := b
  cases scalar <;> cases scalar' <;> first | rfl | cases hab

/-- Two keys that are the same as a third one are the same, if neither is rounded beside it. -/
theorem sameKey_trans (ha : a.InSpace) (hb : b.InSpace) (hc : c.InSpace) (hac : Unmixed a c)
    (hbc : Unmixed b c) (h : a.sameKey c) (h' : b.sameKey c) : a.sameKey b := by
  have hidentity := (sameKey_iff ha hc hac).1 h
  have hidentity' := (sameKey_iff hb hc hbc).1 h'
  refine (sameKey_iff ha hb fun hna hnb => ?_).2 (hidentity.trans hidentity'.symm)
  have hnc : c.isNumeric := isNumeric_congr hidentity ▸ hna
  exact (hac hna hnc).trans (hbc hnb hnc).symm

end Atomic

end XPath
