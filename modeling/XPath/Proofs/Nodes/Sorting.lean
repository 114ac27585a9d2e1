import XPath.Nodes.Order
import XPath.Proofs.Nodes.OrderKeys

/-!
# Sorting nodes

Sorting nodes by their keys and dropping repeated ones comes to the document order of the list
(`Node.sort_run`), each node with its key (`Node.sortWithKeys_run`).
-/

namespace XPath

namespace Node

variable {f : Forest} {n p : Node}

open Forest

theorem dropRepeated_sublist (l : List (OrderKey × Node)) : (dropRepeated l).Sublist l := by
  fun_induction dropRepeated l with
  | case1 n k n' rest ih => exact ih.trans (by simp)
  | case2 k n k' n' rest hk ih => exact ih.cons_cons _
  | case3 => exact List.Sublist.refl _

/-- The key of every element is kept. -/
theorem exists_mem_dropRepeated {l : List (OrderKey × Node)} {x : OrderKey × Node} (hx : x ∈ l) :
    ∃ y ∈ dropRepeated l, y.1 = x.1 := by
  fun_induction dropRepeated l generalizing x with
  | case1 n k n' rest ih =>
    rcases List.mem_cons.1 hx with rfl | hx
    · exact ih List.mem_cons_self
    · rcases List.mem_cons.1 hx with rfl | hx
      · exact ih (x := (k, n)) List.mem_cons_self
      · exact ih (List.mem_cons_of_mem _ hx)
  | case2 k n k' n' rest hk ih =>
    rcases List.mem_cons.1 hx with rfl | hx
    · exact ⟨_, List.mem_cons_self, rfl⟩
    · obtain ⟨y, hy, hyx⟩ := ih hx
      exact ⟨y, List.mem_cons_of_mem _ hy, hyx⟩
  | case3 => exact ⟨x, hx, rfl⟩

/-- A list in which keys do not decrease comes out with keys that increase. -/
theorem dropRepeated_pairwise {l : List (OrderKey × Node)}
    (hl : l.Pairwise fun x y => x.1.rank ≤ y.1.rank) :
    (dropRepeated l).Pairwise fun x y => x.1.rank < y.1.rank := by
  fun_induction dropRepeated l with
  | case1 n k n' rest ih => exact ih (hl.sublist (by simp))
  | case2 k n k' n' rest hk ih =>
    obtain ⟨hfirst, hl⟩ := List.pairwise_cons.1 hl
    refine List.pairwise_cons.2 ⟨fun y hy => ?_, ih hl⟩
    have hlt : k.rank < k'.rank :=
      lt_of_le_of_ne (hfirst _ List.mem_cons_self) fun h => hk (OrderKey.rank_inj.1 h)
    rcases List.mem_cons.1 ((dropRepeated_sublist _).subset hy) with rfl | hy
    · exact hlt
    · exact hlt.trans_le ((List.pairwise_cons.1 hl).1 y hy)
  | case3 l hshort =>
    match l, hshort with
    | [], _ => exact .nil
    | [_], _ => exact List.pairwise_singleton ..
    | _ :: _ :: _, hshort => exact absurd rfl (hshort _ _ _ _ _)

/-- Nodes with their keys. -/
def keyed (f : Forest) (roots : Roots) (ns : List Node) : List (OrderKey × Node) :=
  ns.map fun n => (keyIn f roots n, n)

/-- Sorting puts nodes into document order, each with its key. -/
theorem sortWithKeys_run (f : Forest) (ns : List Node) :
    (sortWithKeys ns).run (.ofForest f) = .ok (keyed f (f.roots ns) (f.documentOrder ns)) := by
  have hkeys := orderKeys_run f [] ns
  rw [withRoot_foldl_nil] at hkeys
  rw [sortWithKeys, Task.run_bind_ok hkeys]
  set sorted := (keyed f (f.roots ns) ns).mergeSort fun a b => a.1.compare b.1 != .gt with hsorted
  have hroot : ∀ {n}, n ∈ ns → f.root n ∈ f.roots ns := fun hn =>
    List.mem_eraseDups.2 (List.mem_map_of_mem hn)
  have hmem : ∀ {x}, x ∈ sorted → x.2 ∈ ns ∧ x.1 = keyIn f (f.roots ns) x.2 := fun hx => by
    obtain ⟨n, hn, rfl⟩ := List.mem_map.1 (List.mem_mergeSort.1 hx)
    exact ⟨hn, rfl⟩
  have hle : sorted.Pairwise fun x y => x.1.rank ≤ y.1.rank := by
    refine (List.pairwise_mergeSort (fun a b c hab hbc => ?_) (fun a b => ?_) _).imp
      OrderKey.compare_ne_gt.1
    · exact OrderKey.compare_ne_gt.2
        ((OrderKey.compare_ne_gt.1 hab).trans (OrderKey.compare_ne_gt.1 hbc))
    · rw [Bool.or_eq_true, OrderKey.compare_ne_gt, OrderKey.compare_ne_gt]
      exact le_total _ _
  have hkept : ∀ {x}, x ∈ dropRepeated sorted → x ∈ sorted := fun hx =>
    (dropRepeated_sublist sorted).subset hx
  have hnodes : (dropRepeated sorted).map (·.2) = f.documentOrder ns := by
    refine pairwise_eq_of_mem ?_ (f.documentOrder_pairwise ns) fun n => ?_
    · refine List.pairwise_map.2 ((dropRepeated_pairwise hle).imp_of_mem fun hx hy hxy => ?_)
      obtain ⟨hx, hkx⟩ := hmem (hkept hx)
      rw [hkx, (hmem (hkept hy)).2] at hxy
      exact (keyIn_rank_lt (hroot hx)).1 hxy
    · rw [mem_documentOrder, List.mem_map]
      constructor
      · rintro ⟨x, hx, rfl⟩
        exact (hmem (hkept hx)).1
      · intro hn
        have hin : (keyIn f (f.roots ns) n, n) ∈ sorted :=
          List.mem_mergeSort.2 (List.mem_map_of_mem hn)
        obtain ⟨y, hy, hyn⟩ := exists_mem_dropRepeated hin
        obtain ⟨hyns, hky⟩ := hmem (hkept hy)
        exact ⟨y, hy, keyIn_inj (hroot hyns) (hky.symm.trans hyn)⟩
  have hpairs : dropRepeated sorted = keyed f (f.roots ns) ((dropRepeated sorted).map (·.2)) := by
    conv_lhs => rw [← List.map_id (dropRepeated sorted)]
    rw [keyed, List.map_map]
    exact List.map_congr_left fun x hx => Prod.ext (hmem (hkept hx)).2 rfl
  exact congrArg Except.ok (hnodes ▸ hpairs)

/-- Sorting puts nodes into document order. -/
theorem sort_run (f : Forest) (ns : List Node) :
    (sort ns).run (.ofForest f) = .ok (f.documentOrder ns) := by
  rw [sort, Task.run_bind_ok (sortWithKeys_run f ns)]
  exact congrArg Except.ok (by rw [keyed, List.map_map]; exact List.map_id _)

end Node

end XPath
