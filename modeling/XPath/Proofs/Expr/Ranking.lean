import XPath.Expr.Specificity

/-!
# Adding rankings

Two rankings are compared in the first class in which they differ (`Specificity.Decides`). A sum has the
counts of both, up to the largest word, so it never ranks below either of them, and adding the same to
two rankings keeps their order, as long as the class that decides between them is not filled up
(`Specificity.add_ranks`). Once it is, the classes behind it decide, and the order can turn around
(`Specificity.compare_add_filled`).
-/

namespace XPath.Specificity

variable {a b k s t : Specificity} {c d : SpecificityClass} {n : UInt32}
  {xs ys : List (SpecificityClass × UInt32)}

/-- The largest count. -/
def maxCount : Nat := UInt32.size - 1

/-! ## Counts -/

@[simp] theorem count_ofCounts (f : SpecificityClass → UInt32) (c : SpecificityClass) :
    (ofCounts f).count c = f c := by
  cases c <;> rfl

@[simp] theorem count_none (c : SpecificityClass) : none.count c = 0 := by
  cases c <;> rfl

theorem toNat_count_le (s : Specificity) (c : SpecificityClass) : (s.count c).toNat ≤ maxCount :=
  Nat.le_sub_one_of_lt (s.count c).toNat_lt

/-- Rankings are the same if their counts are. -/
theorem eq_of_counts (h : ∀ c, (s.count c).toNat = (t.count c).toNat) : s = t := by
  obtain ⟨_, _, _, _, _⟩ := s
  obtain ⟨_, _, _, _, _⟩ := t
  have hword := fun c => UInt32.toNat_inj.1 (h c)
  simp only [mk.injEq]
  exact ⟨hword .external, hword .attribute, hword .nodeName, hword .nodeType, hword .universal⟩

theorem toNat_saturatingSum (x y : UInt32) :
    (saturatingSum x y).toNat = min (x.toNat + y.toNat) maxCount := by
  rw [saturatingSum, UInt32.toNat_ofNat_of_lt' (Nat.lt_of_le_of_lt (Nat.min_le_right _ _) (by decide))]
  rfl

@[simp] theorem toNat_count_add (a b : Specificity) (c : SpecificityClass) :
    ((a.add b).count c).toNat = min ((a.count c).toNat + (b.count c).toNat) maxCount := by
  rw [add, count_ofCounts, toNat_saturatingSum]

/-! ## Listed counts -/

/-- All that is listed of a class. -/
def listed : List (SpecificityClass × UInt32) → SpecificityClass → Nat
  | [], _ => 0
  | x :: xs, c => (if x.1 = c then x.2.toNat else 0) + listed xs c

theorem listed_append (xs ys : List (SpecificityClass × UInt32)) (c : SpecificityClass) :
    listed (xs ++ ys) c = listed xs c + listed ys c := by
  induction xs with
  | nil => rw [List.nil_append, listed, Nat.zero_add]
  | cons x xs ih => rw [List.cons_append, listed, listed, ih, Nat.add_assoc]

/-- There is a ranking with any counts that fit. -/
theorem exists_counts (f : SpecificityClass → Nat) (hf : ∀ c, f c ≤ maxCount) :
    ∃ s : Specificity, ∀ c, (s.count c).toNat = f c := by
  refine ⟨ofCounts fun c => .ofNat (f c), fun c => ?_⟩
  rw [count_ofCounts, UInt32.toNat_ofNat_of_lt' (Nat.lt_of_le_of_lt (hf c) (by decide))]

/-- A sum that fits takes the place of one count. -/
theorem toNat_count_replaced (hfits : (s.count c).toNat + n.toNat < UInt32.size)
    (d : SpecificityClass) :
    ((ofCounts fun d => if d = c then s.count c + n else s.count d).count d).toNat =
      (s.count d).toNat + if c = d then n.toNat else 0 := by
  rw [count_ofCounts]
  by_cases hd : d = c
  · subst hd
    rw [if_pos rfl, if_pos rfl, UInt32.toNat_add, Nat.mod_eq_of_lt hfits]
  · rw [if_neg hd, if_neg (Ne.symm hd), Nat.add_zero]

/-- A count is added to one class, and the sum has to fit. -/
theorem addTo?_eq_some : s.addTo? c n = some t ↔
    ∀ d, (t.count d).toNat = (s.count d).toNat + if c = d then n.toNat else 0 := by
  rw [addTo?, exactSum?, Option.map_eq_some_iff]
  constructor
  · rintro ⟨m, hm, rfl⟩
    obtain ⟨hfits, rfl⟩ : (s.count c).toNat + n.toNat < UInt32.size ∧ s.count c + n = m := by
      simpa using hm
    exact toNat_count_replaced hfits
  · intro ht
    have hfits : (s.count c).toNat + n.toNat < UInt32.size := by
      have hc := ht c
      rw [if_pos rfl] at hc
      rw [← hc]
      exact (t.count c).toNat_lt
    refine ⟨s.count c + n, if_pos hfits, eq_of_counts fun d => ?_⟩
    rw [ht, toNat_count_replaced hfits]

theorem foldlM_addTo?_eq_some :
    xs.foldlM (fun s (c, n) => s.addTo? c n) s = some t ↔
      ∀ c, (t.count c).toNat = (s.count c).toNat + listed xs c := by
  induction xs generalizing s with
  | nil =>
    rw [List.foldlM_nil]
    constructor
    · rintro ⟨⟩ c
      rfl
    · exact fun h => congrArg some (eq_of_counts fun c => (h c).symm)
  | cons x xs ih =>
    obtain ⟨c, n⟩ := x
    simp only [List.foldlM_cons, Option.bind_eq_bind, Option.bind_eq_some_iff, ih, addTo?_eq_some]
    constructor
    · rintro ⟨u, hu, ht⟩ d
      rw [ht, hu, listed, Nat.add_assoc]
    · intro ht
      obtain ⟨u, hu⟩ := exists_counts (fun d => (s.count d).toNat + if c = d then n.toNat else 0)
        fun d => by
          have := t.toNat_count_le d
          rw [ht, listed] at this
          dsimp only at this ⊢
          omega
      refine ⟨u, hu, fun d => ?_⟩
      rw [ht, hu, listed, Nat.add_assoc]

/-- The ranking with listed counts has in every class all that is listed of it; there is none if that
does not fit. -/
theorem ofList?_eq_some : ofList? xs = some s ↔ ∀ c, (s.count c).toNat = listed xs c := by
  rw [ofList?, foldlM_addTo?_eq_some]
  simp

/-- Two lists one after the other have the sum of the rankings, if it fits. -/
theorem ofList?_append (h : ∀ c, listed (xs ++ ys) c ≤ maxCount) :
    ∃ a b, ofList? xs = some a ∧ ofList? ys = some b ∧ ofList? (xs ++ ys) = some (a.add b) := by
  simp only [listed_append] at h
  obtain ⟨a, ha⟩ := exists_counts (listed xs) fun c => Nat.le_of_add_right_le (h c)
  obtain ⟨b, hb⟩ := exists_counts (listed ys) fun c => Nat.le_of_add_left_le (h c)
  refine ⟨a, b, ofList?_eq_some.2 ha, ofList?_eq_some.2 hb, ofList?_eq_some.2 fun c => ?_⟩
  rw [toNat_count_add, ha, hb, listed_append, Nat.min_eq_left (h c)]

/-! ## Sums -/

theorem add_comm (a b : Specificity) : a.add b = b.add a :=
  eq_of_counts fun c => by rw [toNat_count_add, toNat_count_add, Nat.add_comm]

theorem add_assoc (a b k : Specificity) : (a.add b).add k = a.add (b.add k) :=
  eq_of_counts fun c => by
    simp only [toNat_count_add]
    omega

theorem add_none (a : Specificity) : a.add none = a :=
  eq_of_counts fun c => by
    rw [toNat_count_add, count_none]
    exact Nat.min_eq_left (a.toNat_count_le c)

/-! ## Order -/

/-- The first class in which the rankings differ has the higher count in the second one. -/
def Decides (c : SpecificityClass) (a b : Specificity) : Prop :=
  ∃ before after, SpecificityClass.all = before ++ c :: after ∧
    (∀ d ∈ before, a.count d = b.count d) ∧ a.count c < b.count c

theorem compareCounts_of_eq {before : List SpecificityClass} (h : ∀ d ∈ before, a.count d = b.count d)
    (after : List SpecificityClass) :
    compareCounts a b (before ++ after) = compareCounts a b after := by
  induction before with
  | nil => rfl
  | cons d before ih =>
    obtain ⟨hd, hbefore⟩ := List.forall_mem_cons.1 h
    rw [List.cons_append, compareCounts, hd, if_neg (UInt32.lt_irrefl _), if_neg (UInt32.lt_irrefl _),
      ih hbefore]

theorem compareCounts_cons_of_lt {after : List SpecificityClass} (h : a.count c < b.count c) :
    compareCounts a b (c :: after) = .lt := if_pos h

/-- What does not rank higher has the same counts, or a lower one in the first class that differs. -/
theorem compareCounts_ne_gt {classes : List SpecificityClass} :
    compareCounts a b classes ≠ .gt ↔
      (∀ c ∈ classes, a.count c = b.count c) ∨
        ∃ before c after, classes = before ++ c :: after ∧ (∀ d ∈ before, a.count d = b.count d) ∧
          a.count c < b.count c := by
  constructor
  · intro h
    induction classes with
    | nil => exact .inl nofun
    | cons c rest ih =>
      rw [compareCounts] at h
      split at h
      · next hlt => exact .inr ⟨[], c, rest, rfl, nofun, hlt⟩
      · split at h
        · exact absurd rfl h
        · next hle hge =>
          have heq : a.count c = b.count c :=
            UInt32.le_antisymm (UInt32.not_lt.1 hge) (UInt32.not_lt.1 hle)
          rcases ih h with hall | ⟨before, d, after, rfl, hbefore, hlt⟩
          · exact .inl (List.forall_mem_cons.2 ⟨heq, hall⟩)
          · exact .inr ⟨c :: before, d, after, rfl, List.forall_mem_cons.2 ⟨heq, hbefore⟩, hlt⟩
  · rintro (hall | ⟨before, c, after, rfl, hbefore, hlt⟩)
    · rw [← List.append_nil classes, compareCounts_of_eq hall]
      nofun
    · rw [compareCounts_of_eq hbefore, compareCounts_cons_of_lt hlt]
      nofun

theorem compare_ne_gt : a.compare b ≠ .gt ↔ a = b ∨ ∃ c, Decides c a b := by
  rw [compare, compareCounts_ne_gt]
  refine or_congr ⟨fun h => ?_, ?_⟩ ⟨?_, ?_⟩
  · exact eq_of_counts fun c => congrArg UInt32.toNat (h c (by cases c <;> decide))
  · rintro rfl c -
    rfl
  · rintro ⟨before, c, after, hsplit⟩
    exact ⟨c, before, after, hsplit⟩
  · rintro ⟨c, before, after, hsplit⟩
    exact ⟨before, c, after, hsplit⟩

theorem count_add_congr (h : a.count c = b.count c) (k : Specificity) :
    (a.add k).count c = (b.add k).count c :=
  UInt32.toNat_inj.1 (by rw [toNat_count_add, toNat_count_add, h])

/-- The class that decides between two rankings decides between the sums with a third one, too, unless
it is filled up: then the classes behind it decide. -/
theorem compare_add {before after : List SpecificityClass}
    (hall : SpecificityClass.all = before ++ c :: after)
    (hbefore : ∀ d ∈ before, a.count d = b.count d) (hlt : a.count c < b.count c) (k : Specificity) :
    (a.add k).compare (b.add k) =
      if (a.count c).toNat + (k.count c).toNat < maxCount then .lt
      else compareCounts (a.add k) (b.add k) after := by
  have hlt := UInt32.lt_iff_toNat_lt.1 hlt
  rw [compare, hall, compareCounts_of_eq fun d hd => count_add_congr (hbefore d hd) k]
  split
  case isTrue hroom =>
    refine compareCounts_cons_of_lt (UInt32.lt_iff_toNat_lt.2 ?_)
    rw [toNat_count_add, toNat_count_add]
    omega
  case isFalse hfull =>
    have heq : (a.add k).count c = (b.add k).count c := by
      refine UInt32.toNat_inj.1 ?_
      rw [toNat_count_add, toNat_count_add]
      omega
    have hskip : compareCounts (a.add k) (b.add k) ([c] ++ after) = _ :=
      compareCounts_of_eq (List.forall_mem_singleton.2 heq) after
    exact hskip

/-- No sum ranks below a part of it. -/
theorem compare_add_self (a b : Specificity) : a.compare (a.add b) ≠ .gt := by
  have hle : ∀ c, a.count c ≤ (a.add b).count c := fun c => UInt32.le_iff_toNat_le.2 <| by
    rw [toNat_count_add]
    exact Nat.le_min.2 ⟨Nat.le_add_right _ _, a.toNat_count_le c⟩
  rw [compare]
  induction SpecificityClass.all with
  | nil => nofun
  | cons c rest ih =>
    rw [compareCounts, if_neg (UInt32.not_lt.2 (hle c))]
    split
    · nofun
    · exact ih

/-! ## Laws -/

/-- Two lists one after the other have the sum of their rankings, if no class is listed too often. Adding
is commutative and associative, and no sum ranks below its parts. What ranks no higher than another
ranking still ranks no higher with a third one added to both, unless that fills up the class that
decides between the two; then the classes behind it decide. -/
theorem add_ranks :
    (∀ xs ys, (∀ c, listed (xs ++ ys) c ≤ maxCount) →
      ∃ a b, ofList? xs = some a ∧ ofList? ys = some b ∧ ofList? (xs ++ ys) = some (a.add b)) ∧
    (∀ a b : Specificity, a.add b = b.add a) ∧
    (∀ a b k : Specificity, (a.add b).add k = a.add (b.add k)) ∧
    (∀ a : Specificity, a.add none = a ∧ none.add a = a) ∧
    (∀ a b : Specificity, a.compare (a.add b) ≠ .gt) ∧
    (∀ a b k : Specificity, a.compare b ≠ .gt →
      (∀ c, Decides c a b → (a.count c).toNat + (k.count c).toNat < maxCount) →
      (a.add k).compare (b.add k) ≠ .gt) ∧
    ∀ (a b k : Specificity) (before after : List SpecificityClass) (c : SpecificityClass),
      SpecificityClass.all = before ++ c :: after → (∀ d ∈ before, a.count d = b.count d) →
      a.count c < b.count c → maxCount ≤ (a.count c).toNat + (k.count c).toNat →
      (a.add k).compare (b.add k) = compareCounts (a.add k) (b.add k) after := by
  refine ⟨fun _ _ => ofList?_append, add_comm, add_assoc, fun a => ⟨add_none a, ?_⟩, compare_add_self,
    fun a b k hle hroom => ?_, fun a b k before after c hall hbefore hlt hfull => ?_⟩
  · rw [add_comm, add_none]
  · rcases compare_ne_gt.1 hle with rfl | ⟨c, hc⟩
    · exact compare_ne_gt.2 (.inl rfl)
    · have hroom := hroom c hc
      obtain ⟨before, after, hall, hbefore, hlt⟩ := hc
      rw [compare_add hall hbefore hlt, if_pos hroom]
      nofun
  · rw [compare_add hall hbefore hlt, if_neg (Nat.not_lt.2 hfull)]

/-- The class of node names is filled up, but the one of attributes has decided before. -/
theorem add_ranks_earlier :
    let low : Specificity := ⟨0, 1, 4294967295, 0, 0⟩
    let high : Specificity := ⟨0, 2, 0, 0, 0⟩
    let more : Specificity := ⟨0, 0, 7, 0, 3⟩
    low.compare high ≠ .gt ∧ (low.add more).compare (high.add more) ≠ .gt ∧
      ∃ a b, ofList? [(.nodeName, 4294967290)] = some a ∧
        ofList? [(.attribute, 1), (.nodeName, 5)] = some b ∧
        ofList? [(.nodeName, 4294967290), (.attribute, 1), (.nodeName, 5)] = some (a.add b) := by
  intro low high more
  obtain ⟨hlists, -, -, -, -, hmono, -⟩ := add_ranks
  have hle : low.compare high ≠ .gt := by decide
  refine ⟨hle, hmono low high more hle ?_, hlists _ _ fun c => ?_⟩
  · rintro c ⟨before, after, -, -, hlt⟩
    cases c
    case «attribute» => decide
    case external | nodeName | nodeType | universal => exact absurd hlt (by decide)
  · cases c <;> decide

/-- Once the class that decides is filled up, what ranks lower can come to rank higher. -/
theorem compare_add_filled :
    ∃ low high more, ofList? [(.external, 4294967294), (.attribute, 1)] = some low ∧
      ofList? [(.external, 4294967295)] = some high ∧ ofList? [(.external, 1)] = some more ∧
      low.compare high = .lt ∧ (low.add more).compare (high.add more) = .gt :=
  ⟨⟨4294967294, 1, 0, 0, 0⟩, ⟨4294967295, 0, 0, 0, 0⟩, ⟨1, 0, 0, 0, 0⟩, by decide, by decide, by decide,
    by decide, by decide⟩

end XPath.Specificity
