import Mathlib.Data.Prod.Lex
import XPath.Proofs.Atomic.KeyIdentity
import XPath.Proofs.Expr.Comparison

/-!
# The order of atomic values

Values are ordered within families: numbers, texts, booleans, dates and times of one primitive type,
and durations of one type that is ordered (`Atomic.exists_compare_iff`). In a family they are ordered by
their `rank`, unless one of them is NaN or an integer or a decimal is rounded beside a float or a
double (`Atomic.compare_eq_rank`). So what is less than a value is less than any third one, or the
third one is less than the value (`Atomic.consistent_of_unmixed`).
-/

namespace XPath

open Number

/-! ## Ranks -/

/-- Places in a linear order that has room for numbers with infinities, for pairs and for texts. -/
abbrev Rank := ℤ ×ₗ ℤ ×ₗ String

namespace Rank

def of (major minor : ℤ) (text : String) : Rank := toLex (major, toLex (minor, text))

theorem compare_of (i j i' j' : ℤ) (s s' : String) :
    Ord.compare (of i j s) (of i' j' s') =
      (Ord.compare i i').then ((Ord.compare j j').then (Ord.compare s s')) := rfl

theorem compare_minor (i j j' : ℤ) (s : String) :
    Ord.compare (of i j s) (of i j' s) = Ord.compare j j' := by
  rw [compare_of, Std.ReflOrd.compare_self, Std.ReflOrd.compare_self, Ordering.then_eq]
  rfl

end Rank

namespace Number.Binary

variable {f : Format} {x y : Binary f}

/-- Infinities come before and after all numbers. -/
def rank : Binary f → Rank
  | .nan => .of 0 0 ""
  | .infinite s => .of (if s then -1 else 1) 0 ""
  | .finite s m e => .of 0 (units f s m e) ""

theorem compare_eq_rank (hx : x.isNaN = false) (hy : y.isNaN = false) :
    x.compare y = some (Ord.compare x.rank y.rank) := by
  cases x with
  | nan => cases hx
  | infinite s =>
    cases y with
    | nan => cases hy
    | infinite t => cases s <;> cases t <;> rfl
    | finite => cases s <;> rfl
  | finite s m e =>
    cases y with
    | nan => cases hy
    | infinite t => cases t <;> rfl
    | finite t n k => exact congrArg some (Rank.compare_minor ..).symm

end Number.Binary

namespace Atomic

variable {op : Relation} {a b : Atomic} {e : Bool} {o : Option Ordering}

/-- The place of a value among those of its family. -/
def rank (a : Atomic) : Rank :=
  match a.scalar with
  | .boolean b => .of 0 b.toNat ""
  | .integer i => .of 0 (Number.Decimal.ofInt i).units ""
  | .decimal d => .of 0 d.units ""
  | .float f => f.widen.rank
  | .double d => d.rank
  | .string s => .of 0 0 s
  | .temporal t => .of 0 t.instant.ordinal ""
  | .duration d => .of d.months d.seconds.units ""
  | .qName _ | .binary _ => .of 0 0 ""

/-! ## Families -/

/-- Values are ordered beside those of the same family. -/
inductive Family where
  | number
  | text
  | truth
  | moment (primitive : Option ItemType)
  | span (type : ItemType)

/-- Untyped values, durations of no ordered type, names and octets have no order. -/
def family? (a : Atomic) : Option Family :=
  match a.scalar with
  | .integer _ | .decimal _ | .float _ | .double _ => some .number
  | .string _ => if a.isText then some .text else none
  | .boolean _ => some .truth
  | .temporal _ => some (.moment a.type.primitive?)
  | .duration _ => if a.type = .duration then none else some (.span a.type)
  | .qName _ | .binary _ => none

theorem scalar_of_isText (ha : a.isText) : ∃ s, a.scalar = .string s := by
  obtain ⟨s, hs⟩ := exists_string?_of_isText ha
  rw [string?] at hs
  split at hs
  · next h =>
    cases hs
    exact ⟨s, h⟩
  · cases hs

theorem isText_eq_false (ha : ∀ s, a.scalar ≠ .string s) : a.isText = false :=
  Bool.eq_false_iff.2 fun htext => (scalar_of_isText htext).elim ha

theorem family?_of_isNumeric (ha : a.isNumeric) : a.family? = some .number := by
  rw [isNumeric] at ha
  rw [family?]
  cases h : a.scalar <;> rw [h] at ha <;> first | rfl | cases ha

theorem family?_of_isText (ha : a.isText) : a.family? = some .text := by
  obtain ⟨s, hs⟩ := scalar_of_isText ha
  simp only [family?, hs, if_pos ha]

/-- What a value of a family is. -/
theorem of_family? {f : Family} (ha : a.family? = some f) :
    match f with
    | .number => a.isNumeric
    | .text => a.isText
    | .truth => ∃ x, a.scalar = .boolean x
    | .moment p => ∃ t, a.scalar = .temporal t ∧ a.type.primitive? = p
    | .span t => ∃ d, a.scalar = .duration d ∧ a.type = t ∧ t ≠ .duration := by
  rw [family?] at ha
  split at ha
  case h_5 =>
    split at ha
    · next htext =>
      cases ha
      exact htext
    · cases ha
  case h_6 x h =>
    cases ha
    exact ⟨x, h⟩
  case h_7 t h =>
    cases ha
    exact ⟨t, h, rfl⟩
  case h_8 d h =>
    split at ha
    · cases ha
    · next htype =>
      cases ha
      exact ⟨d, h, rfl, htype⟩
  case h_9 | h_10 => cases ha
  all_goals
    next h =>
      cases ha
      show a.isNumeric
      rw [isNumeric, h]

/-! ## Comparison within a family -/

theorem compare_texts (ha : a.isText) (hb : b.isText) :
    compare a b e = .ok (a.string?.bind fun s => b.string?.map fun t => compareStrings s t) := by
  obtain ⟨s, hs⟩ := scalar_of_isText ha
  obtain ⟨t, ht⟩ := scalar_of_isText hb
  have hnumeric : a.isNumeric = false := by rw [isNumeric, hs]
  rw [compare, hnumeric, Bool.false_and, if_neg Bool.false_ne_true, ha, hb, Bool.and_self, if_pos rfl,
    string?, string?, hs, ht]
  rfl

/-- Beside a value that is neither a number nor a text no value is compared as one. -/
theorem not_number_or_text (b : Atomic) (hnumber : a.isNumeric = false)
    (htext : ∀ s, a.scalar ≠ .string s) :
    ¬(a.isNumeric && b.isNumeric) ∧ ¬(a.isText && b.isText) := by
  rw [hnumber, isText_eq_false htext, Bool.false_and, Bool.false_and]
  exact ⟨Bool.false_ne_true, Bool.false_ne_true⟩

theorem compare_booleans {p q : Bool} (ha : a.scalar = .boolean p) (hb : b.scalar = .boolean q) :
    compare a b e = .ok (some (Ord.compare p.toNat q.toNat)) := by
  obtain ⟨hnumber, htext⟩ := not_number_or_text b (by rw [isNumeric, ha]) (by simp [ha])
  rw [compare, if_neg hnumber, if_neg htext, ha, hb]

theorem compare_temporals {t u : Time.Temporal} (ha : a.scalar = .temporal t)
    (hb : b.scalar = .temporal u) :
    compare a b e =
      if a.type.primitive? = b.type.primitive? then
        .ok (some (Ord.compare t.instant.ordinal u.instant.ordinal))
      else .error (incomparable a b) := by
  obtain ⟨hnumber, htext⟩ := not_number_or_text b (by rw [isNumeric, ha]) (by simp [ha])
  rw [compare, if_neg hnumber, if_neg htext, ha, hb]

theorem compare_durations {c d : Time.Duration} (ha : a.scalar = .duration c)
    (hb : b.scalar = .duration d) :
    compare a b e =
      if e || (a.type = b.type && a.type ≠ .duration) then
        .ok (some ((Ord.compare c.months d.months).then (c.seconds.compare d.seconds)))
      else .error (incomparable a b) := by
  obtain ⟨hnumber, htext⟩ := not_number_or_text b (by rw [isNumeric, ha]) (by simp [ha])
  rw [compare, if_neg hnumber, if_neg htext, ha, hb]

theorem compare_numbers (ha : a.isNumeric) (hb : b.isNumeric) : ∃ o, compare a b e = .ok o := by
  rw [compare, ha, hb, Bool.and_self, if_pos rfl]
  cases a.asDecimal? <;> cases b.asDecimal? <;> cases a.double? <;> cases b.double? <;> exact ⟨_, rfl⟩

/-- Values are ordered if they have the same family. -/
theorem exists_compare_iff :
    (∃ o, compare a b false = .ok o) ↔ ∃ f, a.family? = some f ∧ b.family? = some f := by
  constructor
  · rintro ⟨o, h⟩
    rw [compare] at h
    split at h
    case isTrue hnum =>
      rw [Bool.and_eq_true] at hnum
      exact ⟨_, family?_of_isNumeric hnum.1, family?_of_isNumeric hnum.2⟩
    split at h
    case isTrue htext =>
      rw [Bool.and_eq_true] at htext
      exact ⟨_, family?_of_isText htext.1, family?_of_isText htext.2⟩
    split at h
    case h_1 x y hx hy => exact ⟨.truth, by rw [family?, hx], by rw [family?, hy]⟩
    case h_2 x y hx hy =>
      split at h
      · next htype => exact ⟨.moment b.type.primitive?, by rw [family?, hx, htype], by rw [family?, hy]⟩
      · cases h
    case h_3 x y hx hy =>
      split at h
      · next htype =>
        rw [Bool.false_or, Bool.and_eq_true, decide_eq_true_iff, decide_eq_true_iff] at htype
        refine ⟨.span a.type, ?_, ?_⟩
        · simp only [family?, hx, if_neg htype.2]
        · simp only [family?, hy, ← htype.1, if_neg htype.2]
      · cases h
    all_goals cases h
  · rintro ⟨f, ha, hb⟩
    have ha := of_family? ha
    have hb := of_family? hb
    cases f with
    | number => exact compare_numbers ha hb
    | text => exact ⟨_, compare_texts ha hb⟩
    | truth =>
      obtain ⟨⟨p, hp⟩, q, hq⟩ := And.intro ha hb
      exact ⟨_, compare_booleans hp hq⟩
    | moment p =>
      obtain ⟨⟨t, ht, hp⟩, u, hu, hp'⟩ := And.intro ha hb
      exact ⟨_, (compare_temporals ht hu).trans (if_pos (hp.trans hp'.symm))⟩
    | span t =>
      obtain ⟨⟨c, hc, rfl, hordered⟩, d, hd, htype, -⟩ := And.intro ha hb
      refine ⟨_, (compare_durations hc hd).trans (if_pos ?_)⟩
      rw [Bool.false_or, Bool.and_eq_true, decide_eq_true_iff, decide_eq_true_iff]
      exact ⟨htype.symm, hordered⟩

/-! ## Order by rank -/

theorem rank_of_asDecimal? {d : Number.Decimal} (ha : a.asDecimal? = some d) :
    a.rank = .of 0 d.units "" := by
  rcases asDecimal?_cases ha with ⟨i, hi, rfl⟩ | hd
  · rw [rank, hi]
  · rw [rank, hd]

theorem rank_of_double? {d : Double} (ha : a.asDecimal? = none) (hd : a.double? = some d) :
    a.rank = d.rank := by
  rw [double?] at hd
  split at hd
  · next h => rw [asDecimal?, h] at ha; cases ha
  · next h => rw [asDecimal?, h] at ha; cases ha
  · next h =>
    cases hd
    rw [rank, h]
  · next h =>
    cases hd
    rw [rank, h]
  · cases hd

theorem compare_numbers_eq_rank (ha : a.isNumeric) (hb : b.isNumeric) (hab : a.Unmixed b)
    (hna : a.isNaN = false) (hnb : b.isNaN = false) :
    compare a b e = .ok (some (Ord.compare a.rank b.rank)) := by
  have hmixed := hab ha hb
  rw [compare, ha, hb, Bool.and_self, if_pos rfl]
  cases hx : a.asDecimal? <;> cases hy : b.asDecimal? <;> rw [hx, hy] at hmixed
  case some.some x y =>
    rw [rank_of_asDecimal? hx, rank_of_asDecimal? hy, Rank.compare_minor]
    rfl
  case none.none =>
    obtain ⟨x, hx'⟩ := double?_of_isNumeric ha
    obtain ⟨y, hy'⟩ := double?_of_isNumeric hb
    have hcompare := Binary.compare_eq_rank ((isNaN_double? hx').trans hna) ((isNaN_double? hy').trans hnb)
    rw [rank_of_double? hx hx', rank_of_double? hy hy', ← hcompare, hx', hy']
  case some.none => exact absurd (hmixed.1 rfl) Bool.false_ne_true
  case none.some => exact absurd (hmixed.2 rfl) Bool.false_ne_true

/-- In a family values are ordered by their ranks, except for NaN and for mixed numbers. -/
theorem compare_eq_rank {f : Family} (ha : a.family? = some f) (hb : b.family? = some f)
    (hab : a.Unmixed b) (hna : a.isNaN = false) (hnb : b.isNaN = false) :
    compare a b false = .ok (some (Ord.compare a.rank b.rank)) := by
  have ha := of_family? ha
  have hb := of_family? hb
  cases f with
  | number => exact compare_numbers_eq_rank ha hb hab hna hnb
  | text =>
    obtain ⟨s, hs⟩ := scalar_of_isText ha
    obtain ⟨t, ht⟩ := scalar_of_isText hb
    rw [compare_texts ha hb, rank, rank, string?, string?, hs, ht]
    rfl
  | truth =>
    obtain ⟨⟨p, hp⟩, q, hq⟩ := And.intro ha hb
    rw [compare_booleans hp hq, rank, rank, hp, hq]
    cases p <;> cases q <;> rfl
  | moment p =>
    obtain ⟨⟨t, ht, hp⟩, u, hu, hp'⟩ := And.intro ha hb
    rw [compare_temporals ht hu, if_pos (hp.trans hp'.symm), rank, rank, ht, hu]
    simp only [Rank.compare_minor]
  | span t =>
    obtain ⟨⟨c, hc, rfl, hordered⟩, d, hd, htype, -⟩ := And.intro ha hb
    have hordered : (false || (a.type = b.type && a.type ≠ .duration)) = true := by
      rw [Bool.false_or, Bool.and_eq_true, decide_eq_true_iff, decide_eq_true_iff]
      exact ⟨htype.symm, hordered⟩
    rw [compare_durations hc hd, if_pos hordered, rank, rank, hc, hd]
    simp only [Rank.compare_of, Std.ReflOrd.compare_self, Ordering.then_eq]
    rfl

/-! ## The operators that order -/

/-- Values that are not untyped are compared as they are. -/
theorem generalCompare_of_typed (ha : a.isUntyped = false) (hb : b.isUntyped = false) :
    generalCompare op [a] [b] =
      (compare a b op.isEquality).map fun o => (o.map op.holds).getD false := by
  have hab : harmonize a b = .ok (a, b) := by rw [harmonize, ha, hb]
  rw [generalCompare_pair, related, hab]
  rfl

theorem generalCompare_lt (ha : a.isUntyped = false) (hb : b.isUntyped = false) :
    generalCompare .lt [a] [b] = (compare a b false).map (· == some .lt) := by
  rw [generalCompare_of_typed ha hb]
  refine congrArg (Except.map · _) (funext fun o => ?_)
  rcases o with _ | _ | _ | _ <;> rfl

theorem generalCompare_eq (ha : a.isUntyped = false) (hb : b.isUntyped = false) :
    generalCompare .eq [a] [b] = (compare a b true).map (· == some .eq) := by
  rw [generalCompare_of_typed ha hb]
  refine congrArg (Except.map · _) (funext fun o => ?_)
  rcases o with _ | _ | _ | _ <;> rfl

/-- One value comes before another one. -/
def Precedes (a b : Atomic) : Prop := compare a b false = .ok (some .lt)

instance (a b : Atomic) : Decidable (Precedes a b) := inferInstanceAs (Decidable (_ = _))

theorem generalCompare_lt_iff (ha : a.isUntyped = false) (hb : b.isUntyped = false) :
    generalCompare .lt [a] [b] = .ok true ↔ Precedes a b := by
  rw [generalCompare_lt ha hb, Precedes]
  cases compare a b false <;> simp [Except.map]

theorem generalCompare_lt_of_not_precedes (ha : a.isUntyped = false) (hb : b.isUntyped = false)
    (h : compare a b false = .ok o) (hab : ¬Precedes a b) : generalCompare .lt [a] [b] = .ok false := by
  have ho : o ≠ some .lt := fun ho => hab (h.trans (congrArg Except.ok ho))
  rw [generalCompare_lt ha hb, h, Except.map, beq_false_of_ne ho]

theorem ordered_iff (ha : a.isUntyped = false) (hb : b.isUntyped = false) :
    (∃ r, generalCompare .lt [a] [b] = .ok r) ↔ ∃ o, compare a b false = .ok o := by
  rw [generalCompare_lt ha hb]
  cases compare a b false <;> simp [Except.map]

theorem compare_swap (h : compare a b false = .ok o) :
    ∃ o', compare b a false = .ok o' ∧ (o' = some .lt ↔ o = some .gt) := by
  have hgt : compare a b (Relation.isEquality .gt) = .ok o := h
  obtain ⟨o', ho', hmap⟩ := compare_mirror hgt
  refine ⟨o', ho', ?_⟩
  revert hmap
  rcases o with _ | _ | _ | _ <;> rcases o' with _ | _ | _ | _ <;> decide

theorem Precedes.asymm (h : Precedes a b) : ¬Precedes b a := by
  intro h'
  obtain ⟨o, ho, hiff⟩ := compare_swap h
  cases hiff.1 (Except.ok.inj (ho.symm.trans h'))

/-- The test for equality agrees with the order, where there is one. -/
theorem compare_true (h : compare a b false = .ok o) : compare a b true = .ok o := by
  obtain ⟨f, ha, hb⟩ := exists_compare_iff.1 ⟨o, h⟩
  have ha := of_family? ha
  have hb := of_family? hb
  cases f with
  | number =>
    have hnumeric : (a.isNumeric && b.isNumeric) = true := (Bool.and_eq_true _ _).mpr ⟨ha, hb⟩
    rw [compare, if_pos hnumeric] at h ⊢
    exact h
  | text =>
    rw [compare_texts ha hb] at h ⊢
    exact h
  | truth =>
    obtain ⟨⟨p, hp⟩, q, hq⟩ := And.intro ha hb
    rw [compare_booleans hp hq] at h ⊢
    exact h
  | moment p =>
    obtain ⟨⟨t, ht, -⟩, u, hu, -⟩ := And.intro ha hb
    rw [compare_temporals ht hu] at h ⊢
    exact h
  | span t =>
    obtain ⟨⟨c, hc, -⟩, d, hd, -⟩ := And.intro ha hb
    rw [compare_durations hc hd] at h ⊢
    split at h
    · rw [if_pos (Bool.true_or _)]
      exact h
    · cases h

/-- Of equal values none precedes the other. -/
theorem not_precedes_of_generalCompare_eq (ha : a.isUntyped = false) (hb : b.isUntyped = false)
    (h : compare a b false = .ok o) (heq : generalCompare .eq [a] [b] = .ok true) :
    ¬Precedes b a := by
  rw [generalCompare_eq ha hb, compare_true h, Except.map, Except.ok.injEq, beq_iff_eq] at heq
  obtain ⟨o', ho', hiff⟩ := compare_swap h
  intro hba
  cases heq.symm.trans (hiff.1 (Except.ok.inj (ho'.symm.trans hba)))

/-! ## Consistency -/

theorem precedes_iff {f : Family} (ha : a.family? = some f) (hb : b.family? = some f)
    (hab : a.Unmixed b) (hna : a.isNaN = false) (hnb : b.isNaN = false) :
    Precedes a b ↔ a.rank < b.rank := by
  rw [Precedes, compare_eq_rank ha hb hab hna hnb, Except.ok.injEq, Option.some.injEq,
    compare_lt_iff_lt]

/-- What is less than a value is less than any third one, or the third one is less than the value. -/
def Consistent (keys : List Atomic) : Prop :=
  ∀ a ∈ keys, ∀ b ∈ keys, ∀ c ∈ keys, generalCompare .lt [a] [c] = .ok true →
    generalCompare .lt [a] [b] = .ok true ∨ generalCompare .lt [b] [c] = .ok true

/-- Values without NaN are consistent unless integers or decimals are mixed with floats or doubles. -/
theorem consistent_of_unmixed {keys : List Atomic} (htyped : ∀ k ∈ keys, k.isUntyped = false)
    (hordered : keys.Pairwise fun x y => ∃ r, generalCompare .lt [x] [y] = .ok r)
    (hnan : ∀ k ∈ keys, k.isNaN = false) (hmixed : ∀ x ∈ keys, ∀ y ∈ keys, x.Unmixed y) :
    Consistent keys := by
  have hfamily : keys.Pairwise fun x y => ∃ f, x.family? = some f ∧ y.family? = some f :=
    hordered.imp_of_mem fun hx hy h => exists_compare_iff.1 ((ordered_iff (htyped _ hx) (htyped _ hy)).1 h)
  have hsymm : Std.Symm fun x y : Atomic => ∃ f, x.family? = some f ∧ y.family? = some f :=
    ⟨fun x y ⟨f, hx, hy⟩ => ⟨f, hy, hx⟩⟩
  intro a ha b hb c hc hac
  rw [generalCompare_lt_iff (htyped a ha) (htyped c hc)] at hac
  rw [generalCompare_lt_iff (htyped a ha) (htyped b hb),
    generalCompare_lt_iff (htyped b hb) (htyped c hc)]
  obtain ⟨f, hfa, hfc⟩ := exists_compare_iff.1 ⟨_, hac⟩
  have hfb : b.family? = some f := by
    by_cases hba : b = a
    · rw [hba, hfa]
    · obtain ⟨g, hgb, hga⟩ := hfamily.forall hb ha hba
      rw [hgb, ← hga, hfa]
  rw [precedes_iff hfa hfc (hmixed a ha c hc) (hnan a ha) (hnan c hc)] at hac
  rw [precedes_iff hfa hfb (hmixed a ha b hb) (hnan a ha) (hnan b hb),
    precedes_iff hfb hfc (hmixed b hb c hc) (hnan b hb) (hnan c hc)]
  exact hac.gt_or_lt b.rank

end Atomic

end XPath
