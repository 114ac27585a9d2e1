import Mathlib.Data.List.Infix
import XPath.Proofs.Nodes.Subtree

/-!
# Lists in document order

Document order puts the nodes of a list tree after tree, in the order in which the trees first
appear, and the nodes of one tree in the order of the walk from its root. A list is in document
order as soon as its trees can be numbered so that any two of its nodes are in the order of their
trees or, within one tree, of their keys (`Forest.Ordered.eq`). Parts of such a list are ordered,
and so are the nodes found below the nodes of an ordered list of which none lies below another one
(`Forest.Ordered.flatMap`).
-/

namespace XPath

/-! ## First appearances -/

section EraseDups

variable {α β : Type} [DecidableEq α] [DecidableEq β]

theorem eraseDups_sublist (l : List α) : l.eraseDups.Sublist l := by
  induction hn : l.length using Nat.strongRecOn generalizing l with
  | ind n ih =>
    cases l with
    | nil => simp
    | cons a l =>
      rw [List.eraseDups_cons]
      refine List.Sublist.cons_cons a ((ih _ ?_ _ rfl).trans List.filter_sublist)
      exact hn ▸ Nat.lt_succ_of_le (List.length_filter_le ..)

theorem nodup_eraseDups (l : List α) : l.eraseDups.Nodup := by
  induction hn : l.length using Nat.strongRecOn generalizing l with
  | ind n ih =>
    cases l with
    | nil => simp
    | cons a l =>
      rw [List.eraseDups_cons, List.nodup_cons]
      refine ⟨by simp, ih _ ?_ _ rfl⟩
      exact hn ▸ Nat.lt_succ_of_le (List.length_filter_le ..)

theorem eraseDups_concat (l : List α) (a : α) :
    (l ++ [a]).eraseDups = if a ∈ l then l.eraseDups else l.eraseDups ++ [a] := by
  rw [List.eraseDups_append]
  split <;> simp_all [List.removeAll, List.eraseDups_cons]

/-- The first appearances of images are among those of first appearances. -/
theorem eraseDups_map_eraseDups (g : α → β) (l : List α) :
    (l.eraseDups.map g).eraseDups = (l.map g).eraseDups := by
  induction l using List.reverseRecOn with
  | nil => rfl
  | append_singleton l a ih =>
    rw [eraseDups_concat, List.map_append, List.map_singleton, eraseDups_concat, ← ih]
    by_cases ha : a ∈ l
    · rw [if_pos ha, if_pos (List.mem_map_of_mem ha)]
    · rw [if_neg ha, List.map_append, List.map_singleton, eraseDups_concat]
      simp

end EraseDups

namespace Forest

variable {f : Forest} {n m p : Node} {ns ms : List Node} {g : Node → Nat}

/-- The roots of nodes, in the order of their first appearance. -/
def roots (f : Forest) (ns : List Node) : List Node := (ns.map f.root).eraseDups

/-- The distinct nodes of a list in document order. -/
def documentOrder (f : Forest) (ns : List Node) : List Node :=
  (f.roots ns).flatMap fun r => (f.walk r).filter (· ∈ ns)

theorem documentOrder_congr (hr : f.roots ns = f.roots ms) (hm : ∀ n, n ∈ ns ↔ n ∈ ms) :
    f.documentOrder ns = f.documentOrder ms := by
  simp only [documentOrder, hr, hm]

theorem root_root (f : Forest) (n : Node) : f.root (f.root n) = f.root n := by
  induction n using parent_induction (f := f) with
  | top n hn => simp [root_of_none hn]
  | down n p hn ih => simp [root_of_some hn, ih]

theorem key_root (f : Forest) (n : Node) : f.key (f.root n) = [] := by
  induction n using parent_induction (f := f) with
  | top n hn => rw [root_of_none hn, key_of_none hn]
  | down n p hn ih => rw [root_of_some hn, ih]

theorem mem_walk_root (f : Forest) (n : Node) : n ∈ f.walk (f.root n) :=
  mem_walk.2 ⟨root_root f n, key_root f n ▸ List.nil_prefix⟩

@[simp] theorem mem_documentOrder : n ∈ f.documentOrder ns ↔ n ∈ ns := by
  simp only [documentOrder, roots, List.mem_flatMap, List.mem_filter, List.mem_eraseDups,
    List.mem_map, decide_eq_true_eq]
  exact ⟨fun ⟨_, _, _, h⟩ => h, fun h => ⟨f.root n, ⟨n, h, rfl⟩, mem_walk_root f n, h⟩⟩

/-! ## Ordered lists -/

/-- One node comes before another one when trees are ordered by a numbering of their roots. -/
def Precedes (f : Forest) (g : Node → Nat) (n m : Node) : Prop :=
  g (f.root n) < g (f.root m) ∨ f.root n = f.root m ∧ f.key n < f.key m

theorem Precedes.trans (h : f.Precedes g n m) (h' : f.Precedes g m p) : f.Precedes g n p := by
  rcases h with h | ⟨hr, hk⟩ <;> rcases h' with h' | ⟨hr', hk'⟩
  · exact .inl (h.trans h')
  · exact .inl (hr' ▸ h)
  · exact .inl (hr ▸ h')
  · exact .inr ⟨hr.trans hr', List.lt_trans hk hk'⟩

theorem Precedes.ne (h : f.Precedes g n m) : n ≠ m := by
  rintro rfl
  rcases h with h | ⟨-, h⟩
  · exact Nat.lt_irrefl _ h
  · exact List.lt_irrefl _ h

/-- Nodes tree after tree, those of one tree in the order of the walk. -/
def Ordered (f : Forest) (ns : List Node) : Prop := ∃ g, ns.Pairwise (f.Precedes g)

theorem Ordered.sublist (hs : ms.Sublist ns) (h : f.Ordered ns) : f.Ordered ms := by
  obtain ⟨g, hg⟩ := h
  exact ⟨g, hg.sublist hs⟩

theorem ordered_of_length (h : ns.length ≤ 1) : f.Ordered ns := by
  refine ⟨fun _ => 0, ?_⟩
  match ns with
  | [] => exact .nil
  | [_] => exact List.pairwise_singleton ..

/-- Nodes in the order of one walk. -/
theorem ordered_of_walk (hs : ns.Sublist (f.walk n)) : f.Ordered ns := by
  refine ⟨fun _ => 0, (((f.walk_sorted n).imp_of_mem ?_).sublist hs)⟩
  intro a b ha hb hab
  exact .inr ⟨(mem_walk.1 ha).1.symm.trans (mem_walk.1 hb).1, hab⟩

theorem Ordered.nodup (h : f.Ordered ns) : ns.Nodup := by
  obtain ⟨g, hg⟩ := h
  exact hg.imp Precedes.ne

theorem pairwise_eq_of_mem (hn : ns.Pairwise (f.Precedes g)) (hm : ms.Pairwise (f.Precedes g))
    (hmem : ∀ n, n ∈ ns ↔ n ∈ ms) : ns = ms := by
  have hp : ns.Perm ms :=
    (List.perm_ext_iff_of_nodup (hn.imp Precedes.ne) (hm.imp Precedes.ne)).2 hmem
  exact hp.eq_of_pairwise (fun a b _ _ hab hba => absurd rfl (hab.trans hba).ne) hn hm

theorem documentOrder_pairwise (f : Forest) (ns : List Node) :
    (f.documentOrder ns).Pairwise (f.Precedes (f.roots ns).idxOf) := by
  have hroot : ∀ r ∈ f.roots ns, f.root r = r := fun r hr => by
    obtain ⟨n, -, rfl⟩ := List.mem_map.1 (List.mem_eraseDups.1 hr)
    exact root_root f n
  have inside : ∀ r ∈ f.roots ns, ∀ n ∈ (f.walk r).filter (· ∈ ns), f.root n = r :=
    fun r hr n hn => (mem_walk.1 (List.mem_of_mem_filter hn)).1 ▸ hroot r hr
  refine List.pairwise_flatMap.2 ⟨fun r hr => ?_, ?_⟩
  · refine ((f.walk_sorted r).sublist List.filter_sublist).imp_of_mem fun hn hm hlt => ?_
    exact .inr ⟨(inside r hr _ hn).trans (inside r hr _ hm).symm, hlt⟩
  · have hnodup : (f.roots ns).Nodup := nodup_eraseDups _
    rw [List.pairwise_iff_getElem]
    intro i j hi hj hij n hn m hm
    left
    beta_reduce
    rwa [inside _ (List.getElem_mem hi) n hn, inside _ (List.getElem_mem hj) m hm,
      hnodup.idxOf_getElem i hi, hnodup.idxOf_getElem j hj]

theorem ordered_documentOrder (f : Forest) (ns : List Node) : f.Ordered (f.documentOrder ns) :=
  ⟨_, f.documentOrder_pairwise ns⟩

/-- An ordered list is in document order. -/
theorem Ordered.eq (h : f.Ordered ns) : f.documentOrder ns = ns := by
  obtain ⟨g, hg⟩ := h
  have hroots : (f.roots ns).Pairwise fun r r' => g r < g r' := by
    have hle : (ns.map f.root).Pairwise fun r r' => r = r' ∨ g r < g r' :=
      List.pairwise_map.2 (hg.imp fun h => h.symm.imp And.left id)
    refine ((hle.sublist (eraseDups_sublist _)).and (nodup_eraseDups _)).imp ?_
    exact fun ⟨h, hne⟩ => h.resolve_left hne
  refine pairwise_eq_of_mem (f.documentOrder_pairwise ns) ?_ fun _ => mem_documentOrder
  refine hg.imp_of_mem fun {a b} ha hb hab => hab.imp_left fun hlt => ?_
  have hmem : ∀ {a}, a ∈ ns → f.root a ∈ f.roots ns := fun ha =>
    List.mem_eraseDups.2 (List.mem_map_of_mem ha)
  have ha := List.idxOf_lt_length_of_mem (hmem ha)
  have hb := List.idxOf_lt_length_of_mem (hmem hb)
  rcases Nat.lt_trichotomy ((f.roots ns).idxOf (f.root a)) ((f.roots ns).idxOf (f.root b))
    with h | h | h
  · exact h
  · rw [(List.idxOf_inj (List.idxOf_lt_length_iff.1 ha)).1 h] at hlt
    exact absurd hlt (Nat.lt_irrefl _)
  · have := List.pairwise_iff_getElem.1 hroots _ _ hb ha h
    simp only [List.getElem_idxOf] at this
    omega

/-! ## Nodes below nodes -/

theorem mem_walk_trans (hm : m ∈ f.walk n) (hp : p ∈ f.walk m) : p ∈ f.walk n := by
  obtain ⟨hr, hk⟩ := mem_walk.1 hm
  obtain ⟨hr', hk'⟩ := mem_walk.1 hp
  exact mem_walk.2 ⟨hr.trans hr', hk.trans hk'⟩

/-- Of two nodes above a third one, one lies above the other. -/
theorem mem_walk_or (hn : p ∈ f.walk n) (hm : p ∈ f.walk m) : m ∈ f.walk n ∨ n ∈ f.walk m := by
  obtain ⟨hr, hk⟩ := mem_walk.1 hn
  obtain ⟨hr', hk'⟩ := mem_walk.1 hm
  refine (List.prefix_or_prefix_of_prefix hk hk').imp (fun h => ?_) fun h => ?_
  · exact mem_walk.2 ⟨hr.trans hr'.symm, h⟩
  · exact mem_walk.2 ⟨hr'.trans hr.symm, h⟩

/-- No node of the list lies below another one. -/
def Peers (f : Forest) (ns : List Node) : Prop := ∀ n ∈ ns, ∀ m ∈ ns, m ∈ f.walk n → n = m

theorem Peers.subset (hs : ms ⊆ ns) (h : f.Peers ns) : f.Peers ms :=
  fun n hn m hm => h n (hs hn) m (hs hm)

theorem Peers.eq_of_above (h : f.Peers ns) (hn : n ∈ ns) (hm : m ∈ ns) (hpn : p ∈ f.walk n)
    (hpm : p ∈ f.walk m) : n = m :=
  (mem_walk_or hpn hpm).elim (h n hn m hm) fun hw => (h m hm n hn hw).symm

theorem key_lt_of_lt {x y x' y' : List Nat} (hlt : x < y) (hxy : ¬ x <+: y) (hx : x <+: x')
    (hy : y <+: y') : x' < y' := by
  obtain ⟨r, rfl⟩ := hx
  obtain ⟨r', rfl⟩ := hy
  induction hlt with
  | nil => exact absurd List.nil_prefix hxy
  | rel h => exact List.Lex.rel h
  | cons _ ih => exact List.Lex.cons (ih fun h => hxy (by simpa using h))

/-- Ordered nodes below the nodes of an ordered list of which none lies below another one. -/
theorem Ordered.flatMap {parts : List (Node × List Node)} (ho : f.Ordered (parts.map (·.1)))
    (hp : f.Peers (parts.map (·.1)))
    (h : ∀ x ∈ parts, f.Ordered x.2 ∧ ∀ m ∈ x.2, m ∈ f.walk x.1) :
    f.Ordered (parts.flatMap (·.2)) := by
  obtain ⟨g, hg⟩ := ho
  refine ⟨g, List.pairwise_flatMap.2 ⟨fun x hx => ?_, ?_⟩⟩
  · -- All of them are in one tree, whatever numbering puts them in order.
    obtain ⟨⟨g', hg'⟩, hw⟩ := h x hx
    refine hg'.imp_of_mem fun ha hb hab => .inr ?_
    have hr := (mem_walk.1 (hw _ ha)).1.symm.trans (mem_walk.1 (hw _ hb)).1
    exact hab.resolve_left fun hlt => absurd (hr ▸ hlt) (Nat.lt_irrefl _)
  · refine (List.pairwise_map.1 hg).imp_of_mem fun {x y} hx hy hxy a ha b hb => ?_
    obtain ⟨hra, hka⟩ := mem_walk.1 ((h x hx).2 a ha)
    obtain ⟨hrb, hkb⟩ := mem_walk.1 ((h y hy).2 b hb)
    rcases hxy with hlt | ⟨hr, hk⟩
    · exact .inl (hra ▸ hrb ▸ hlt)
    · refine .inr ⟨hra.symm.trans (hr.trans hrb), key_lt_of_lt hk (fun hpre => ?_) hka hkb⟩
      have := hp _ (List.mem_map_of_mem hx) _ (List.mem_map_of_mem hy) (mem_walk.2 ⟨hr, hpre⟩)
      exact List.lt_irrefl _ (this ▸ hk)

theorem Peers.flatMap {parts : List (Node × List Node)} (ho : f.Ordered (parts.map (·.1)))
    (hp : f.Peers (parts.map (·.1)))
    (h : ∀ x ∈ parts, f.Peers x.2 ∧ ∀ m ∈ x.2, m ∈ f.walk x.1) :
    f.Peers (parts.flatMap (·.2)) := by
  intro a ha b hb hab
  obtain ⟨x, hx, ha⟩ := List.mem_flatMap.1 ha
  obtain ⟨y, hy, hb⟩ := List.mem_flatMap.1 hb
  have hxy : x.1 = y.1 := hp.eq_of_above (List.mem_map_of_mem hx) (List.mem_map_of_mem hy)
    (mem_walk_trans ((h x hx).2 a ha) hab) ((h y hy).2 b hb)
  obtain rfl := List.inj_on_of_nodup_map ho.nodup hx hy hxy
  exact (h x hx).1 a ha b hb hab

end Forest

end XPath
