import Mathlib.Data.String.Basic
import XPath.Expr.Meaning
import XPath.Proofs.Atomic.Equality
import XPath.Proofs.Lazy.Combinators
import XPath.Proofs.Number.Exactness

/-!
# General comparison

A comparison of two sequences is true if some pair of their items compares true
(`Atomic.generalCompare_eq_ok`), so it does not depend on the order of the items or on repetitions, grows
with both sequences, and equals the mirrored comparison of the swapped ones, for every family of values
is compared symmetrically (`Atomic.related_mirror`). Inequality is the negation of equality on two items
unless they have no order, that is, unless one of them is NaN.
-/

namespace XPath

open Number

/-! ## Swapped operands -/

theorem Number.Binary.compare_swap {f : Format} (x y : Binary f) :
    y.compare x = (x.compare y).map Ordering.swap := by
  cases x with
  | nan => cases y <;> rfl
  | infinite s =>
    cases y with
    | nan => rfl
    | infinite t => cases s <;> cases t <;> rfl
    | finite => cases s <;> rfl
  | finite s m e =>
    cases y with
    | nan => rfl
    | infinite t => cases t <;> rfl
    | finite t n k => exact congrArg some Std.OrientedOrd.eq_swap

theorem Number.Binary.isNaN_of_compare {f : Format} {x y : Binary f} (h : x.compare y = none) :
    x.isNaN || y.isNaN := by
  cases x with
  | nan => rfl
  | infinite | finite =>
    cases y with
    | nan => rfl
    | infinite | finite => cases h

theorem Number.Decimal.compare_swap (x y : Decimal) : y.compare x = (x.compare y).swap :=
  Std.OrientedOrd.eq_swap

theorem Except.bind_eq_ok {α β : Type} {x : Except Error α} {f : α → Except Error β} {b : β} :
    (x >>= f) = .ok b ↔ ∃ a, x = .ok a ∧ f a = .ok b := by
  cases x with
  | error => exact ⟨nofun, nofun⟩
  | ok a => exact ⟨fun h => ⟨a, rfl, h⟩, fun ⟨_, rfl, h⟩ => h⟩

theorem Except.pure_eq_ok {α : Type} {a b : α} : (pure a : Except Error α) = .ok b ↔ a = b :=
  ⟨fun h => Except.ok.inj h, congrArg Except.ok⟩

namespace Atomic

variable {op : Relation} {a b x y : Atomic} {left right : List Atomic} {e r : Bool}
  {o : Option Ordering}

theorem compareStrings_swap (x y : String) : compareStrings y x = (compareStrings x y).swap := by
  rcases lt_trichotomy x y with h | rfl | h
  · rw [compareStrings, compareStrings, if_pos h, if_neg h.not_gt, if_neg h.ne']
    rfl
  · rw [compareStrings, if_neg (lt_irrefl x), if_pos rfl]
    rfl
  · rw [compareStrings, compareStrings, if_pos h, if_neg h.not_gt, if_neg h.ne']
    rfl

theorem compareOctets_swap (x y : List UInt8) : compareOctets y x = (compareOctets x y).swap := by
  induction x generalizing y with
  | nil => cases y <;> rfl
  | cons a as ih =>
    cases y with
    | nil => rfl
    | cons b bs =>
      rw [compareOctets, compareOctets]
      by_cases hlt : a < b
      · rw [if_pos hlt, if_neg (UInt8.lt_asymm hlt), if_pos hlt]
        rfl
      · by_cases hgt : b < a
        · rw [if_pos hgt, if_neg hlt, if_pos hgt]
          rfl
        · rw [if_neg hgt, if_neg hlt, if_neg hgt, if_neg hlt]
          exact ih bs

namespace Relation

/-- The operator that says the same of swapped operands. -/
def mirror : Relation → Relation
  | .eq => .eq
  | .ne => .ne
  | .lt => .gt
  | .le => .ge
  | .gt => .lt
  | .ge => .le

@[simp] theorem isEquality_mirror (op : Relation) : op.mirror.isEquality = op.isEquality := by
  cases op <;> rfl

@[simp] theorem holds_mirror (op : Relation) (o : Ordering) : op.mirror.holds o.swap = op.holds o := by
  cases op <;> cases o <;> rfl

end Relation

theorem compare_swap_of_isNumeric (hnum : (a.isNumeric && b.isNumeric) = true)
    (h : compare a b e = .ok o) : compare b a e = .ok (o.map Ordering.swap) := by
  rw [compare, if_pos hnum] at h
  rw [compare, if_pos (Bool.and_comm _ _ ▸ hnum)]
  cases hx : a.asDecimal? <;> cases hy : b.asDecimal? <;> simp only [hx, hy] at h ⊢
  case some.some x y =>
    cases h
    rw [Decimal.compare_swap]
    rfl
  -- Beside a float or a double, both are compared as doubles.
  all_goals
    cases hx' : a.double? <;> cases hy' : b.double? <;> simp only [hx', hy'] at h ⊢ <;> cases h <;>
      first | rfl | rw [Binary.compare_swap]

theorem compare_swap_of_isText (hnum : (a.isNumeric && b.isNumeric) = false)
    (htext : (a.isText && b.isText) = true)
    (h : compare a b e = .ok o) : compare b a e = .ok (o.map Ordering.swap) := by
  rw [compare, if_neg (by simp [hnum]), if_pos htext] at h
  rw [compare, if_neg (by simp [Bool.and_comm, hnum]), if_pos (Bool.and_comm _ _ ▸ htext)]
  cases hx : a.string? <;> cases hy : b.string? <;> simp only [hx, hy] at h ⊢ <;> cases h
  case some.some =>
    rw [compareStrings_swap]
    rfl
  all_goals rfl

/-- Swapped operands are compared by the mirrored operator. The order of two names is not mirrored, but
the only operators that take names ask just whether they are equal. -/
theorem compare_mirror (h : compare a b op.isEquality = .ok o) :
    ∃ o', compare b a op.isEquality = .ok o' ∧ o'.map op.mirror.holds = o.map op.holds := by
  have of_swap (h : compare b a op.isEquality = .ok (o.map Ordering.swap)) :
      ∃ o', compare b a op.isEquality = .ok o' ∧ o'.map op.mirror.holds = o.map op.holds :=
    ⟨_, h, by cases o <;> simp⟩
  cases hnum : a.isNumeric && b.isNumeric with
  | true => exact of_swap (compare_swap_of_isNumeric hnum h)
  | false =>
    cases htext : a.isText && b.isText with
    | true => exact of_swap (compare_swap_of_isText hnum htext h)
    | false =>
      rw [compare, if_neg (by simp [hnum]), if_neg (by simp [htext])] at h
      rw [compare, if_neg (by simp [Bool.and_comm, hnum]), if_neg (by simp [Bool.and_comm, htext])] at of_swap ⊢
      split at h
      case h_1 x y hx hy =>
        cases h
        simp only [hx, hy] at of_swap ⊢
        exact of_swap (congrArg (fun o => Except.ok (some o)) Std.OrientedOrd.eq_swap)
      case h_2 x y hx hy =>
        simp only [hx, hy] at of_swap ⊢
        split at h
        case isTrue htype =>
          cases h
          rw [if_pos htype.symm] at of_swap ⊢
          exact of_swap (congrArg (fun o => Except.ok (some o)) Std.OrientedOrd.eq_swap)
        case isFalse => cases h
      case h_3 x y hx hy =>
        simp only [hx, hy] at of_swap ⊢
        split at h
        case isTrue htype =>
          cases h
          have htype' : (op.isEquality || (b.type = a.type && b.type ≠ .duration)) = true := by
            simp only [Bool.or_eq_true, Bool.and_eq_true, decide_eq_true_eq] at htype ⊢
            rcases htype with h | ⟨h, hne⟩
            · exact .inl h
            · exact .inr ⟨h.symm, h ▸ hne⟩
          rw [if_pos htype'] at of_swap ⊢
          refine of_swap (congrArg (fun o => Except.ok (some o)) ?_)
          rw [Ordering.swap_then, Decimal.compare_swap]
          exact congrArg (Ordering.then · _) Std.OrientedOrd.eq_swap
        case isFalse => cases h
      case h_4 x y hx hy =>
        simp only [hx, hy] at of_swap ⊢
        split at h
        case isTrue hop =>
          cases h
          rw [if_pos hop, QName.sameName_comm]
          exact ⟨_, rfl, by cases op <;> cases x.sameName y <;> first | rfl | cases hop⟩
        case isFalse => cases h
      case h_5 x y hx hy =>
        simp only [hx, hy] at of_swap ⊢
        split at h
        case isTrue htype =>
          cases h
          have htype' : (op.isEquality && b.type = a.type) = true := by
            simp only [Bool.and_eq_true, decide_eq_true_eq] at htype ⊢
            exact htype.imp_right Eq.symm
          rw [if_pos htype'] at of_swap ⊢
          exact of_swap (by rw [compareOctets_swap]; rfl)
        case isFalse => cases h
      case h_6 => cases h

theorem harmonize_swap (h : harmonize a b = .ok (x, y)) : harmonize b a = .ok (y, x) := by
  unfold harmonize at h ⊢
  cases ha : a.isUntyped <;> cases hb : b.isUntyped <;>
    simp only [ha, hb, Except.bind_eq_ok, Except.pure_eq_ok, Prod.mk.injEq] at h ⊢
  case false.false =>
    cases h
    rfl
  case true.true =>
    obtain ⟨x', hx, y', hy, rfl, rfl⟩ := h
    exact ⟨_, hy, _, hx, rfl, rfl⟩
  case false.true | true.false =>
    obtain ⟨x', hx, rfl, rfl⟩ := h
    exact ⟨_, hx, rfl, rfl⟩

/-- A pair is related as the swapped pair is by the mirrored operator. -/
theorem related_mirror (h : related op a b = .ok r) : related op.mirror b a = .ok r := by
  simp only [related, Except.bind_eq_ok, Except.pure_eq_ok, Prod.exists] at h ⊢
  obtain ⟨x, y, hxy, o, ho, rfl⟩ := h
  obtain ⟨o', ho', hmap⟩ := compare_mirror ho
  exact ⟨y, x, harmonize_swap hxy, o', op.isEquality_mirror ▸ ho', congrArg (Option.getD · false) hmap⟩

/-! ## Sequences -/

/-- No pair of items of two sequences fails to be compared. -/
def Comparable (op : Relation) (left right : List Atomic) : Prop :=
  ∀ a ∈ left, ∀ b ∈ right, ∃ r, related op a b = .ok r

theorem Comparable.mono {left' right' : List Atomic} (h : Comparable op left right) (hl : left' ⊆ left)
    (hr : right' ⊆ right) : Comparable op left' right' :=
  fun a ha b hb => h a (hl ha) b (hr hb)

theorem Comparable.mirror (h : Comparable op left right) : Comparable op.mirror right left :=
  fun b hb a ha => (h a ha b hb).imp fun _ => related_mirror

theorem row_eq_ok {bs : List Atomic} (h : ∀ b ∈ bs, ∃ r, related op a b = .ok r) :
    ∃ r, generalCompare.row op bs a = .ok r ∧ (r = true ↔ ∃ b ∈ bs, related op a b = .ok true) := by
  induction bs with
  | nil => exact ⟨false, rfl, by simp⟩
  | cons b bs ih =>
    rw [List.forall_mem_cons] at h
    obtain ⟨⟨r, hr⟩, hbs⟩ := h
    obtain ⟨rest, hrest, hiff⟩ := ih hbs
    rw [generalCompare.row, hr]
    cases r with
    | true => exact ⟨true, rfl, by simp [hr]⟩
    | false => exact ⟨rest, hrest, by simp [hr, hiff]⟩

/-- Where no pair of items fails, a comparison is true if some pair compares true. -/
theorem generalCompare_eq_ok (h : Comparable op left right) :
    ∃ r, generalCompare op left right = .ok r ∧
      (r = true ↔ ∃ a ∈ left, ∃ b ∈ right, related op a b = .ok true) := by
  induction left with
  | nil => exact ⟨false, rfl, by simp⟩
  | cons a left ih =>
    obtain ⟨ha, hleft⟩ := List.forall_mem_cons.1 h
    obtain ⟨r, hr, hiff⟩ := row_eq_ok ha
    obtain ⟨rest, hrest, hiff'⟩ := ih hleft
    rw [generalCompare, hr]
    cases r with
    | true => exact ⟨true, rfl, iff_of_true rfl ⟨a, List.mem_cons_self, hiff.1 rfl⟩⟩
    | false =>
      refine ⟨rest, hrest, ?_⟩
      rw [List.exists_mem_cons_iff, ← hiff, ← hiff']
      simp

/-- Sequences with more items are related whenever sequences with fewer are. -/
theorem generalCompare_mono {left' right' : List Atomic}
    (h : Comparable op left right) (hl : left' ⊆ left) (hr : right' ⊆ right) :
    ∃ r', generalCompare op left' right' = .ok r' ∧
      (r' = true → generalCompare op left right = .ok true) := by
  obtain ⟨r, hok, hiff⟩ := generalCompare_eq_ok h
  obtain ⟨r', hok', hiff'⟩ := generalCompare_eq_ok (h.mono hl hr)
  refine ⟨r', hok', fun hr' => ?_⟩
  obtain ⟨a, ha, b, hb, hab⟩ := hiff'.1 hr'
  rw [hok, hiff.2 ⟨a, hl ha, b, hr hb, hab⟩]

/-- The order of the items and repetitions do not matter. -/
theorem generalCompare_congr {left' right' : List Atomic}
    (h : Comparable op left right) (hl : ∀ a, a ∈ left' ↔ a ∈ left) (hr : ∀ b, b ∈ right' ↔ b ∈ right) :
    generalCompare op left' right' = generalCompare op left right := by
  obtain ⟨r, hok, hiff⟩ := generalCompare_eq_ok h
  obtain ⟨r', hok', hiff'⟩ := generalCompare_eq_ok (h.mono (fun a => (hl a).1) fun b => (hr b).1)
  have hrr : r' = true ↔ r = true := by simp only [hiff', hiff, hl, hr]
  rw [hok, hok', Bool.eq_iff_iff.2 hrr]

theorem generalCompare_mirror (h : Comparable op left right) :
    generalCompare op.mirror right left = generalCompare op left right := by
  have hswap {a b : Atomic} (ha : a ∈ left) (hb : b ∈ right) :
      related op.mirror b a = .ok true ↔ related op a b = .ok true := by
    obtain ⟨r, hr⟩ := h a ha b hb
    rw [related_mirror hr, hr]
  obtain ⟨r, hok, hiff⟩ := generalCompare_eq_ok h
  obtain ⟨r', hok', hiff'⟩ := generalCompare_eq_ok h.mirror
  have hrr : r' = true ↔ r = true := by
    rw [hiff', hiff]
    constructor
    · rintro ⟨b, hb, a, ha, hab⟩
      exact ⟨a, ha, b, hb, (hswap ha hb).1 hab⟩
    · rintro ⟨a, ha, b, hb, hab⟩
      exact ⟨b, hb, a, ha, (hswap ha hb).2 hab⟩
  rw [hok, hok', Bool.eq_iff_iff.2 hrr]

/-! ## Inequality -/

/-- A float or a double that is no number. -/
def isNaN (a : Atomic) : Bool :=
  match a.scalar with
  | .float f => f.isNaN
  | .double d => d.isNaN
  | _ => false

/-- One of two values is NaN, once an untyped one has taken the type of the other. -/
def unordered (a b : Atomic) : Bool :=
  match harmonize a b with
  | .ok (x, y) => x.isNaN || y.isNaN
  | .error _ => false

theorem isNaN_double? {d : Double} (hd : a.double? = some d) : d.isNaN = a.isNaN := by
  obtain ⟨type, scalar, hfits⟩ := a
  cases scalar with
  | integer =>
    cases hd
    exact Binary.isNaN_ofRatio _ _ _
  | decimal d =>
    cases hd
    exact d.isNaN_toDouble
  | float f =>
    cases hd
    exact f.isNaN_convert
  | double =>
    cases hd
    rfl
  | _ => cases hd

theorem exists_string?_of_isText (h : a.isText) : ∃ s, a.string? = some s := by
  obtain ⟨type, scalar, hfits⟩ := a
  change (type.isSubtypeOf .string || type.isSubtypeOf .anyUri) = true at h
  cases scalar with
  | string s => exact ⟨s, rfl⟩
  | _ =>
    exfalso
    simp only [Scalar.fits] at hfits
    revert hfits h
    cases type <;> decide

/-- Only NaN has no order. -/
theorem isNaN_of_compare (h : compare a b e = .ok none) : a.isNaN || b.isNaN := by
  rw [compare] at h
  split at h
  case isTrue hnum =>
    rw [Bool.and_eq_true] at hnum
    obtain ⟨x, hx⟩ := double?_of_isNumeric hnum.1
    obtain ⟨y, hy⟩ := double?_of_isNumeric hnum.2
    rw [← isNaN_double? hx, ← isNaN_double? hy]
    split at h
    · cases h
    · simp only [hx, hy] at h
      exact Binary.isNaN_of_compare (Except.ok.inj h)
  case isFalse =>
    split at h
    case isTrue htext =>
      rw [Bool.and_eq_true] at htext
      obtain ⟨x, hx⟩ := exists_string?_of_isText htext.1
      obtain ⟨y, hy⟩ := exists_string?_of_isText htext.2
      simp only [hx, hy] at h
      cases h
    case isFalse => split at h <;> (try split at h) <;> cases h

theorem generalCompare_pair (op : Relation) (a b : Atomic) : generalCompare op [a] [b] = related op a b := by
  rw [generalCompare, generalCompare.row]
  rcases related op a b with _ | _ | _ <;> rfl

/-- Two items that have an order are unequal if they are not equal. -/
theorem generalCompare_ne (h : unordered a b = false) :
    generalCompare .ne [a] [b] = (generalCompare .eq [a] [b]).map (!·) := by
  rw [generalCompare_pair, generalCompare_pair, related, related]
  rw [unordered] at h
  rcases hpair : harmonize a b with e | ⟨x, y⟩
  · rfl
  rw [hpair] at h
  show (do let order ← compare x y true; return (order.map Relation.ne.holds).getD false) =
    Except.map (!·)
      (do let order ← compare x y true; return (order.map Relation.eq.holds).getD false)
  rcases hxy : compare x y true with e | _ | o
  · rfl
  · exact absurd (isNaN_of_compare hxy) (Bool.eq_false_iff.1 h)
  · rfl

theorem generalCompare_ne_untyped :
    unordered (.untyped "2") (.integer 3) = false ∧
      generalCompare .ne [.untyped "2"] [.integer 3] = .ok true := by
  have h : unordered (.untyped "2") (.integer 3) = false := by decide +kernel
  refine ⟨h, (generalCompare_ne h).trans ?_⟩
  decide +kernel

/-- NaN is neither equal nor unequal to itself. -/
theorem generalCompare_ne_nan :
    generalCompare .eq [.double .nan] [.double .nan] = .ok false ∧
      generalCompare .ne [.double .nan] [.double .nan] = .ok false :=
  ⟨rfl, rfl⟩

end Atomic

/-! ## Expressions -/

namespace Meaning

open Producer

variable {h : Host} {left right : Meaning} {c : Context} {access : Access} {p q : Producer}
  {xs ys : List Value} {s t u : Session} {op : Atomic.Relation} {r : Bool}

/-- A comparison delivers what the comparison of the atomized operands comes to. -/
theorem comparison_yields (hl : left c access = .ok p) (hp : Yields h (atomize access p) s xs none t)
    (hr : right c access = .ok q) (hq : Yields h (atomize access q) t ys none u)
    (hv : Atomic.generalCompare op (xs.filterMap Value.atomic?) (ys.filterMap Value.atomic?) = .ok r) :
    ∃ e, comparison op left right c access = .ok e ∧ Yields h e s [.boolean r] none u := by
  rw [comparison, hl]
  refine ⟨_, rfl, .item (hp.drain ?_) (.finish .done)⟩
  simp only [hr]
  change Draws h (withAll (atomize access q) _) t _ u
  refine hq.drain ?_
  simp only [hv]
  exact .emit

/-- Sequences of atomic values are compared with this verdict, and so are all operands that atomize to
them. -/
structure Compares (op : Atomic.Relation) (xs ys : List Atomic) (verdict : Bool) : Prop where
  decides : Atomic.generalCompare op xs ys = .ok verdict
  delivers : ∀ (h : Host) (left right : Meaning) (c : Context) (access : Access) (p q : Producer)
    (s t u : Session), left c access = .ok p → Yields h (atomize access p) s (xs.map .atomic) none t →
    right c access = .ok q → Yields h (atomize access q) t (ys.map .atomic) none u →
    ∃ e, comparison op left right c access = .ok e ∧ Yields h e s [.boolean verdict] none u

theorem compares_of_ok {xs ys : List Atomic} (hv : Atomic.generalCompare op xs ys = .ok r) :
    Compares op xs ys r where
  decides := hv
  delivers h left right c access p q s t u hl hp hr hq := by
    have hatomic (zs : List Atomic) : (zs.map Value.atomic).filterMap Value.atomic? = zs := by
      rw [List.filterMap_map]
      exact List.filterMap_some
    exact comparison_yields hl hp hr hq (by rw [hatomic, hatomic]; exact hv)

/-- Where no pair of items fails, a comparison says whether some pair compares true. So permuting or
repeating items does not change it, more items do not make it false, and the mirrored operator says the
same of the swapped operands. -/
theorem comparison_existential (op : Atomic.Relation) (xs ys : List Atomic)
    (h : Atomic.Comparable op xs ys) :
    ∃ verdict : Bool, Compares op xs ys verdict ∧
      (verdict = true ↔ ∃ a ∈ xs, ∃ b ∈ ys, Atomic.related op a b = .ok true) ∧
      (∀ xs' ys', (∀ a, a ∈ xs' ↔ a ∈ xs) → (∀ b, b ∈ ys' ↔ b ∈ ys) → Compares op xs' ys' verdict) ∧
      (∀ xs' ys', xs' ⊆ xs → ys' ⊆ ys →
        ∃ verdict', Compares op xs' ys' verdict' ∧ (verdict' = true → verdict = true)) ∧
      Compares op.mirror ys xs verdict := by
  obtain ⟨verdict, hok, hiff⟩ := Atomic.generalCompare_eq_ok h
  refine ⟨verdict, compares_of_ok hok, hiff, fun xs' ys' hxs hys => ?_, fun xs' ys' hxs hys => ?_, ?_⟩
  · exact compares_of_ok ((Atomic.generalCompare_congr h hxs hys).trans hok)
  · obtain ⟨verdict', hok', himp⟩ := Atomic.generalCompare_mono h hxs hys
    exact ⟨verdict', compares_of_ok hok', fun hv => Except.ok.inj (hok.symm.trans (himp hv))⟩
  · exact compares_of_ok ((Atomic.generalCompare_mirror h).trans hok)

theorem comparison_existential_less :
    Compares .lt [.string "c", .string "a"] [.untyped "b"] true ∧
      Compares .gt [.untyped "b"] [.string "c", .string "a"] true := by
  have h : Atomic.Comparable .lt [.string "c", .string "a"] [.untyped "b"] := by
    simp only [Atomic.Comparable, List.forall_mem_cons, List.not_mem_nil, false_imp_iff, implies_true,
      and_true]
    exact ⟨⟨_, rfl⟩, ⟨_, rfl⟩⟩
  obtain ⟨verdict, hcompares, hiff, -, -, hmirror⟩ := comparison_existential .lt _ _ h
  obtain rfl : verdict = true :=
    hiff.2 ⟨.string "a", by decide, .untyped "b", by decide, by decide⟩
  exact ⟨hcompares, hmirror⟩

end Meaning

end XPath
