import Mathlib.Data.List.Sort
import XPath.Library.Functions
import XPath.Proofs.Atomic.Ordering
import XPath.Proofs.Lazy.Provision

/-!
# Sorting arrays

Members are inserted one after the other, so that sorting is an insertion sort by the order of their
items (`Members.sort_singles`). Members of one item that is not untyped are rearranged as soon as every
two of them have an order (`Members.sort_runs`). If the order is consistent, none is less than one
before it in the result, and equal ones stay in their order (`Members.sort_provides`). Beside NaN it is
not: as NaN has no order, members that ought to be exchanged stay on both sides of it
(`Members.sort_notANumber`).
-/

namespace XPath

open Producer

/-- A list is sorted by a relation that is transitive on it. -/
theorem pairwise_insertionSort_of_mem {α : Type} {r : α → α → Prop} [DecidableRel r] [Std.Total r]
    {l : List α} (htrans : ∀ x ∈ l, ∀ y ∈ l, ∀ z ∈ l, r x y → r y z → r x z) :
    (l.insertionSort r).Pairwise r := by
  let s : { x // x ∈ l } → { x // x ∈ l } → Prop := fun x y => r x y
  have : Std.Total s := ⟨fun x y => total_of r x.1 y.1⟩
  have : IsTrans _ s := ⟨fun x y z => htrans x x.2 y y.2 z z.2⟩
  have hmap := List.map_insertionSort s r Subtype.val l.attach fun _ _ _ _ => Iff.rfl
  rw [List.attach_map_subtype_val] at hmap
  rw [← hmap, List.pairwise_map]
  exact List.pairwise_insertionSort s l.attach

namespace Members

open Atomic

variable {entries before c : List (Atomic × Shared)} {x y : Atomic × Shared} {a b : Atomic}
  {o : Option Ordering}

/-! ## Insertion by the order of single items -/

/-- A member of one item. -/
def single (e : Atomic × Shared) : Keyed := ([e.1], e.2)

/-- The first member does not precede the second one. -/
def Follows (x y : Atomic × Shared) : Prop := ¬Precedes x.1 y.1

instance : DecidableRel Follows := fun _ _ => inferInstanceAs (Decidable ¬_)

instance : Std.Total Follows :=
  ⟨fun _ _ => Decidable.or_iff_not_imp_left.2 fun h => (Decidable.not_not.1 h).asymm⟩

theorem compareKeys_singles (h : a.compare b false = .ok o) :
    compareKeys [a] [b] = .ok (o.getD .eq) := by
  rw [compareKeys, h]
  rcases o with _ | _ | _ | _ <;> rfl

/-- A member that is ordered beside those before it is inserted there. -/
theorem insertSorted_singles {failure : Option Error}
    (h : ∀ y ∈ before, ∃ o, x.1.compare y.1 false = .ok o) :
    insertSorted (single x) failure (before.map single) =
      (failure, (before.orderedInsert Follows x).map single) := by
  induction before with
  | nil => rfl
  | cons y before ih =>
    obtain ⟨⟨o, ho⟩, hbefore⟩ := List.forall_mem_cons.1 h
    have hkeys : compareKeys (single x).1 (single y).1 = .ok (o.getD .eq) := compareKeys_singles ho
    rw [List.map_cons, insertSorted, List.orderedInsert_cons, hkeys]
    -- Members without an order count as equal, and a member goes past those alone that it precedes.
    by_cases hlt : o = some .lt
    · subst hlt
      have hfollows : ¬Follows x y := not_not.2 ho
      rw [if_neg hfollows, ih hbefore]
      rfl
    · have hfollows : Follows x y := fun h => hlt (Except.ok.inj (ho.symm.trans h))
      rw [if_pos hfollows]
      rcases o with _ | _ | _ | _ <;> first | rfl | exact absurd rfl hlt

/-- The sorted members. Insertion takes them from the first one on and keeps the last one in front. -/
def sorted (entries : List (Atomic × Shared)) : List (Atomic × Shared) :=
  (entries.reverse.insertionSort Follows).reverse

theorem sortInto_singles (hbefore : ∀ x ∈ entries, ∀ y ∈ before, ∃ o, x.1.compare y.1 false = .ok o)
    (h : entries.Pairwise fun y x => ∃ o, x.1.compare y.1 false = .ok o) :
    sortInto none (before.map single) (entries.map single) =
      (none, (entries.foldl (fun sorted x => sorted.orderedInsert Follows x) before).map single) := by
  induction entries generalizing before with
  | nil => rfl
  | cons x entries ih =>
    obtain ⟨hx, hbefore⟩ := List.forall_mem_cons.1 hbefore
    obtain ⟨hnext, h⟩ := List.pairwise_cons.1 h
    rw [List.map_cons, sortInto, insertSorted_singles hx]
    refine ih (fun y hy z hz => ?_) h
    rcases (List.mem_orderedInsert Follows).1 hz with rfl | hz
    · exact hnext y hy
    · exact hbefore y hy z hz

/-- Members of one item are sorted, if every two of them are ordered. -/
theorem sort_singles (h : entries.Pairwise fun y x => ∃ o, x.1.compare y.1 false = .ok o) :
    sort (entries.map single) = .ok ((sorted entries).map (·.2)) := by
  have hsorted := sortInto_singles (fun _ _ _ hy => absurd hy List.not_mem_nil) h
  rw [List.map_nil] at hsorted
  rw [sort, hsorted, sorted, List.insertionSort, List.foldr_reverse]
  exact congrArg Except.ok (by rw [← List.map_reverse, List.map_map]; rfl)

theorem sorted_perm (entries : List (Atomic × Shared)) : (sorted entries).Perm entries :=
  (List.reverse_perm _).trans ((List.perm_insertionSort _ _).trans (List.reverse_perm entries))

/-- Members that do not precede those before them are not rearranged. -/
theorem sublist_sorted (hc : c.Sublist entries) (hkeep : c.Pairwise fun x y => ¬Precedes y.1 x.1) :
    c.Sublist (sorted entries) := by
  have hreverse : c.reverse.Pairwise Follows := List.pairwise_reverse.2 hkeep
  have hsublist := List.sublist_insertionSort hreverse (List.reverse_sublist.2 hc)
  rw [← List.reverse_sublist, List.reverse_reverse] at hsublist
  exact hsublist

/-- No member precedes one before it, if what precedes one precedes any third one, or that one precedes
the first. -/
theorem pairwise_sorted
    (h : ∀ x ∈ entries, ∀ y ∈ entries, ∀ z ∈ entries, Precedes x.1 z.1 →
      Precedes x.1 y.1 ∨ Precedes y.1 z.1) :
    (sorted entries).Pairwise fun x y => ¬Precedes y.1 x.1 := by
  have hsorted : (entries.reverse.insertionSort Follows).Pairwise Follows := by
    refine pairwise_insertionSort_of_mem fun x hx y hy z hz hxy hyz hxz => ?_
    rw [List.mem_reverse] at hx hy hz
    exact (h x hx y hy z hz hxz).elim hxy hyz
  exact List.pairwise_reverse.2 hsorted

end Members

/-! ## Running -/

variable {h : Host} {n w : Nat} {Ψ : Courses} {o : Course} {a : Account} {s : Session}
  {source : Producer} {access : Access} {entries : List (Atomic × Shared)}

/-- Members of one item are atomized to that item. -/
theorem Members.withKeys_runs {next : List Keyed → Producer}
    (hmembers : ∀ e ∈ entries, Course.Is n Ψ ([.atomic e.1], none) e.2)
    (hnext : ∀ Ψ', Ψ.Extends Ψ' → (next (entries.map single)).Runs h n w Ψ' o) :
    (withKeys access (entries.map (·.2)) next).Runs h n w Ψ o := by
  induction entries generalizing next Ψ with
  | nil => exact hnext Ψ (.refl Ψ)
  | cons e entries ih =>
    obtain ⟨he, hentries⟩ := List.forall_mem_cons.1 hmembers
    have hknow : Ψ.Know n 0 fun _ => ([], none) := nofun
    have hwithin : ∀ v ∈ ([.atomic e.1] : List Value), v.Within 0 :=
      List.forall_mem_singleton.2 .atomic
    have hkey : (atomize access (.reader e.2)).Runs h n 0 Ψ ([.atomic e.1], none) :=
      Runs.atomize hknow hwithin (.reader he)
    rw [List.map_cons, withKeys, ← Nat.zero_add w]
    refine Runs.drain (g := fun _ => o) hkey fun _ Ψ₁ hΨ₁ => ?_
    refine ih (fun e' he' => (hentries e' he').mono (Nat.le_refl n) hΨ₁) fun Ψ₂ hΨ₂ => ?_
    exact hnext Ψ₂ (hΨ₁.trans hΨ₂)

namespace Members

open Atomic

/-- Members that are ordered by the operator are ordered as they are, in both directions. -/
theorem pairwise_compare (htyped : ∀ e ∈ entries, e.1.isUntyped = false)
    (hordered : entries.Pairwise fun x y => ∃ r, generalCompare .lt [x.1] [y.1] = .ok r) :
    entries.Pairwise fun x y =>
      (∃ o, x.1.compare y.1 false = .ok o) ∧ ∃ o, y.1.compare x.1 false = .ok o := by
  refine hordered.imp_of_mem fun hx hy h => ?_
  obtain ⟨o, ho⟩ := (ordered_iff (htyped _ hx) (htyped _ hy)).1 h
  exact ⟨⟨o, ho⟩, (compare_swap ho).imp fun _ => And.left⟩

/-- Members of one item that is not untyped are rearranged, if every two of them have an order. -/
theorem sort_runs (call : CallContext) (hs : s.calm = a.session) (ha : a.OnCourse h n)
    (hsource : source.Runs h n w a.courses ([.array (entries.map (·.2))], none))
    (hmembers : ∀ e ∈ entries, Course.Is n a.courses ([.atomic e.1], none) e.2)
    (htyped : ∀ e ∈ entries, e.1.isUntyped = false)
    (hordered : entries.Pairwise fun x y => ∃ r, generalCompare .lt [x.1] [y.1] = .ok r) :
    ∃ p, Builtin.arraySort.run call [source] = .ok p ∧
      p.Provides h s [.array ((sorted entries).map (·.2))] none := by
  have hrun : (withFirsts [source] fun firsts => do
      let members ← expectArray firsts.head?.join
      return withKeys call.access members fun keyed =>
        ofExcept ((sort keyed).map fun sorted => singleton (.array sorted))).Runs h n (w + 0)
          a.courses ([.array ((sorted entries).map (·.2))], none) := by
    refine .withFirst hsource fun Ψ hΨ => ?_
    refine withKeys_runs (fun e he => (hmembers e he).mono (Nat.le_refl n) hΨ) fun Ψ' hΨ' => ?_
    rw [sort_singles ((pairwise_compare htyped hordered).imp And.right)]
    exact .ofList 0 [_]
  obtain ⟨t, hy, -⟩ := hrun.yields (ha.anti (Nat.le_refl n))
  exact ⟨_, rfl, hy.provides hs⟩

/-- Members of one item that is not untyped are sorted, if every two of them have an order and the order
is consistent, as it is unless one of them is NaN or an integer or a decimal is mixed with a float or a
double: the result has the members rearranged, none of them less than one before it, and equal ones
in the order in which they were. -/
theorem sort_provides (call : CallContext) (entries : List (Atomic × Shared))
    (hs : s.calm = a.session) (ha : a.OnCourse h n)
    (hsource : source.Runs h n w a.courses ([.array (entries.map (·.2))], none))
    (hmembers : ∀ e ∈ entries, Course.Is n a.courses ([.atomic e.1], none) e.2)
    (htyped : ∀ e ∈ entries, e.1.isUntyped = false)
    (hordered : entries.Pairwise fun x y => ∃ r, generalCompare .lt [x.1] [y.1] = .ok r) :
    ((∀ e ∈ entries, e.1.isNaN = false) → (∀ x ∈ entries, ∀ y ∈ entries, x.1.Unmixed y.1) →
      Consistent (entries.map (·.1))) ∧
    (Consistent (entries.map (·.1)) → ∃ (p : Producer) (sorted : List (Atomic × Shared)),
      Builtin.arraySort.run call [source] = .ok p ∧
      p.Provides h s [.array (sorted.map (·.2))] none ∧
      sorted.Perm entries ∧
      sorted.Pairwise (fun x y => generalCompare .lt [y.1] [x.1] = .ok false) ∧
      ∀ c : List (Atomic × Shared), c.Sublist entries →
        c.Pairwise (fun x y => generalCompare .eq [x.1] [y.1] = .ok true) → c.Sublist sorted) := by
  refine ⟨fun hnan hmixed => ?_, fun hconsistent => ?_⟩
  · exact consistent_of_unmixed (List.forall_mem_map.2 htyped) (List.pairwise_map.2 hordered)
      (List.forall_mem_map.2 hnan)
      (List.forall_mem_map.2 fun x hx => List.forall_mem_map.2 (hmixed x hx))
  obtain ⟨p, hp, hprovides⟩ := sort_runs call hs ha hsource hmembers htyped hordered
  have hperm := sorted_perm entries
  have hpairs := pairwise_compare htyped hordered
  refine ⟨p, sorted entries, hp, hprovides, hperm, ?_, fun c hc heq => ?_⟩
  · have hsorted : (sorted entries).Pairwise fun x y => ¬Precedes y.1 x.1 := by
      refine pairwise_sorted fun x hx y hy z hz hxz => ?_
      have hall := hconsistent x.1 (List.mem_map_of_mem hx) y.1 (List.mem_map_of_mem hy) z.1
        (List.mem_map_of_mem hz)
      rw [generalCompare_lt_iff (htyped x hx) (htyped z hz),
        generalCompare_lt_iff (htyped x hx) (htyped y hy),
        generalCompare_lt_iff (htyped y hy) (htyped z hz)] at hall
      exact hall hxz
    refine (hsorted.and (hperm.symm.pairwise hpairs And.symm)).imp_of_mem ?_
    intro x y hx hy ⟨hyx, _, o, ho⟩
    exact generalCompare_lt_of_not_precedes (htyped y (hperm.subset hy)) (htyped x (hperm.subset hx)) ho hyx
  · refine sublist_sorted hc ((heq.and (hpairs.sublist hc)).imp_of_mem ?_)
    intro x y hx hy ⟨heq, ⟨o, ho⟩, _⟩
    exact not_precedes_of_generalCompare_eq (htyped x (hc.mem hx)) (htyped y (hc.mem hy)) ho heq

/-- Two, a half more than one, and two with another place: the twos stay in their order. -/
theorem sort_provides_decimals :
    let entry (k : Atomic) : Atomic × Shared := (k, .listed [.atomic k])
    let two := entry (.integer 2)
    let less := entry (.decimal ⟨false, 15, 1, by decide, by decide⟩)
    let place := entry (.decimal ⟨false, 20, 1, by decide, by decide⟩)
    ∃ (p : Producer) (sorted : List (Atomic × Shared)),
      Builtin.arraySort.run ⟨.empty, .live, .standard⟩ [ofList [.array [two.2, less.2, place.2]]] = .ok p ∧
        p.Provides .absent .empty [.array (sorted.map (·.2))] none ∧
        sorted.Perm [two, less, place] ∧ [two, place].Sublist sorted := by
  intro entry two less place
  let a : Account := ⟨.empty, fun _ => none, fun _ => 0⟩
  have ha : a.OnCourse .absent 0 := nofun
  have hmembers : ∀ e ∈ [two, less, place], Course.Is 0 a.courses ([.atomic e.1], none) e.2 := by
    simp only [List.forall_mem_cons]
    exact ⟨.listed, .listed, .listed, List.forall_mem_nil _⟩
  have hordered : [two, less, place].Pairwise fun x y => ∃ r, generalCompare .lt [x.1] [y.1] = .ok r := by
    decide
  obtain ⟨hconsistent, hsorts⟩ := sort_provides (s := .empty) ⟨.empty, .live, .standard⟩ [two, less, place] rfl
    ha (.ofList 0 _) hmembers (by decide) hordered
  obtain ⟨p, sorted, hp, hprovides, hperm, -, hstable⟩ := hsorts (hconsistent (by decide) (by decide))
  exact ⟨p, sorted, hp, hprovides, hperm, hstable _ (.cons_cons _ (.cons _ (.refl _))) (by decide)⟩

/-- One is less than two, but NaN between them keeps them as they are. -/
theorem sort_notANumber :
    let entry (k : Atomic) : Atomic × Shared := (k, .listed [.atomic k])
    let entries := [entry (.integer 2), entry (.double .nan), entry (.integer 1)]
    (∃ p, Builtin.arraySort.run ⟨.empty, .live, .standard⟩ [ofList [.array (entries.map (·.2))]] = .ok p ∧
      p.Provides .absent .empty [.array (entries.map (·.2))] none) ∧
    (entries.Pairwise fun x y => ∃ r, generalCompare .lt [x.1] [y.1] = .ok r) ∧
    generalCompare .lt [.integer 1] [.integer 2] = .ok true := by
  intro entry entries
  let a : Account := ⟨.empty, fun _ => none, fun _ => 0⟩
  have ha : a.OnCourse .absent 0 := nofun
  have hmembers : ∀ e ∈ entries, Course.Is 0 a.courses ([.atomic e.1], none) e.2 := by
    simp only [entries, List.forall_mem_cons]
    exact ⟨.listed, .listed, .listed, List.forall_mem_nil _⟩
  refine ⟨?_, by decide, by decide⟩
  exact sort_runs (s := .empty) ⟨.empty, .live, .standard⟩ rfl ha (.ofList 0 _) hmembers
    (by decide) (by decide)

end Members

end XPath
