import Mathlib.Data.List.Flatten
import XPath.Nodes.Axis
import XPath.Proofs.Lazy.Combinators
import XPath.Proofs.Nodes.Sorting

/-!
# The nodes on an axis

`Axis.nodes` lists the nodes of a forest that stand on an axis, in axis order. Forward axes are in
document order (`Axis.ordered_nodes`) and reverse axes against it, the axes that claim to keep nodes
apart do (`Axis.peers_nodes`), and so do those that claim to stay below their origin
(`Axis.nodes_subset_walk`).
-/

namespace XPath

theorem Access.serves {h : Host} {f : Forest} (hs : h.Serves f) (access : Access) :
    (access.host h).Serves f := by
  cases access with
  | live => exact hs
  | detached => exact Host.absent_serves f

namespace Forest

variable {f : Forest} {n m p : Node}

/-- The nodes below a node, each before its own descendants. -/
def descendants (f : Forest) (n : Node) : List Node :=
  (f.children n).attach.flatMap fun c => c.1 :: descendants f c.1
termination_by n.height
decreasing_by exact children_height c.2

theorem descendants_eq (f : Forest) (n : Node) :
    f.descendants n = (f.children n).flatMap fun c => c :: f.descendants c := by
  rw [descendants]
  simp [List.flatMap]

/-- The nodes above a node, the nearest first. -/
def ancestors (f : Forest) (n : Node) : List Node :=
  match _hp : f.parent? n with
  | some p => p :: ancestors f p
  | none => []
termination_by n.path.length
decreasing_by exact parent?_length _hp

theorem ancestors_of_none (hp : f.parent? n = none) : f.ancestors n = [] := by
  rw [ancestors]
  split <;> simp_all

theorem ancestors_of_some (hp : f.parent? n = some p) : f.ancestors n = p :: f.ancestors p := by
  rw [ancestors]
  split <;> simp_all

/-- The siblings of a node that a part of the children of its parent makes up. -/
def siblings (f : Forest) (n : Node) (part : List Node → List Node) : List Node :=
  if n.kind = .attribute then []
  else
    match f.parent? n with
    | some p => part (f.children p)
    | none => []

/-! ## Order -/

theorem listed_sublist_walk (f : Forest) (n : Node) : (f.listed n).Sublist (f.walk n) := by
  rw [walk_eq]
  have : (f.listed n).flatMap (fun c => [c]) = f.listed n := by simp
  conv => lhs; rw [← this]
  refine (List.Sublist.flatMap_right _ fun c _ => ?_).cons _
  rw [walk_eq]
  exact List.Sublist.cons_cons c (List.nil_sublist _)

theorem children_sublist_walk (f : Forest) (n : Node) : (f.children n).Sublist (f.walk n) :=
  (List.sublist_append_right ..).trans (f.listed_sublist_walk n)

theorem attributes_sublist_walk (f : Forest) (n : Node) : (f.attributes n).Sublist (f.walk n) :=
  (List.sublist_append_left ..).trans (f.listed_sublist_walk n)

theorem self_descendants_sublist_walk (f : Forest) (n : Node) :
    (n :: f.descendants n).Sublist (f.walk n) := by
  induction n using listed_induction (f := f) with
  | up n ih =>
    rw [descendants_eq, walk_eq]
    refine List.Sublist.cons_cons n ?_
    exact (List.Sublist.flatMap_right _ fun c hc => ih c (List.mem_append_right _ hc)).trans
      ((List.sublist_append_right ..).flatMap _)

/-- The way down to a node is the way up, backwards. -/
theorem reverse_ancestors (f : Forest) (n : Node) : (n :: f.ancestors n).reverse = f.lineage n := by
  induction n using parent_induction (f := f) with
  | top n hn => rw [ancestors_of_none hn, lineage_of_none hn, List.reverse_singleton]
  | down n p hn ih => rw [ancestors_of_some hn, lineage_of_some hn, List.reverse_cons, ih]

theorem mem_walk_of_mem_ancestors (hm : m ∈ f.ancestors n) : n ∈ f.walk m := by
  rw [← mem_lineage, ← reverse_ancestors, List.mem_reverse]
  exact List.mem_cons_of_mem n hm

/-- The way down to a node is in document order. -/
theorem ordered_ancestors (f : Forest) (n : Node) : f.Ordered (n :: f.ancestors n).reverse := by
  refine ⟨fun _ => 0, List.pairwise_reverse.2 ?_⟩
  induction n using parent_induction (f := f) with
  | top n hn => simp [ancestors_of_none hn]
  | down n p hn ih =>
    rw [ancestors_of_some hn]
    refine List.pairwise_cons.2 ⟨fun m hm => .inr ?_, ih⟩
    have hp : p ∈ f.walk m := by
      rcases List.mem_cons.1 hm with rfl | hm
      · exact mem_walk_self f m
      · exact mem_walk_of_mem_ancestors hm
    obtain ⟨hr, hk⟩ := mem_walk.1 hp
    rw [root_of_some hn, key_of_some hn]
    have hlt : f.key p < f.key p ++ [(f.listed p).idxOf n] := lt_of_extends (List.prefix_refl _)
    obtain ⟨_ | ⟨i, rest⟩, hk⟩ := hk
    · rw [List.append_nil] at hk
      exact ⟨hr, hk ▸ hlt⟩
    · have hpre : f.key m ++ [i] <+: f.key p := ⟨rest, by rw [← hk]; simp⟩
      exact ⟨hr, List.lt_trans (lt_of_extends hpre) hlt⟩

/-- The nodes above a node are those that have it on their walks, other than itself. -/
theorem mem_ancestors_iff : m ∈ f.ancestors n ↔ n ∈ f.walk m ∧ m ≠ n := by
  have hlineage : m = n ∨ m ∈ f.ancestors n ↔ n ∈ f.walk m := by
    rw [← mem_lineage, ← reverse_ancestors, List.mem_reverse, List.mem_cons]
  have hnot : n ∉ f.ancestors n := by
    have hnodup := (f.ordered_ancestors n).nodup
    exact (List.nodup_cons.1 (List.nodup_reverse.1 hnodup)).1
  rw [← hlineage]
  constructor
  · intro hm
    exact ⟨.inr hm, fun h => hnot (h ▸ hm)⟩
  · rintro ⟨hm, hne⟩
    exact hm.resolve_left hne

theorem peers_listed (f : Forest) (n : Node) : f.Peers (f.listed n) := by
  intro a ha b hb hab
  obtain ⟨hr, hk⟩ := mem_walk.1 hab
  refine ext_key hr (hk.eq_of_length ?_)
  simp [key_of_some (mem_listed_iff.1 ha), key_of_some (mem_listed_iff.1 hb)]

end Forest

namespace Axis

open Forest

variable {f : Forest} {n m : Node} {axis : Axis}

/-- The nodes on an axis from `n`, in axis order. -/
def nodes (f : Forest) (axis : Axis) (n : Node) : List Node :=
  match axis with
  | .self => [n]
  | .child => f.children n
  | .attribute => (f.attributes n).filter (!·.isNamespaceDeclaration)
  | .parent => (f.parent? n).toList
  | .descendant => f.descendants n
  | .descendantOrSelf => n :: f.descendants n
  | .ancestor => f.ancestors n
  | .ancestorOrSelf => n :: f.ancestors n
  | .followingSibling => f.siblings n fun all => all.drop (all.idxOf n + 1)
  | .precedingSibling => f.siblings n fun all => (all.take (all.idxOf n)).reverse

/-- Siblings are among the children of one parent. -/
theorem siblings_cases {part : List Node → List Node} (P : List Node → Prop) (hnil : P [])
    (hpart : ∀ p, f.parent? n = some p → P (part (f.children p))) : P (f.siblings n part) := by
  rw [Forest.siblings]
  split
  · exact hnil
  · split
    · exact hpart _ ‹_›
    · exact hnil

theorem ordered_nodes (ha : axis.isReverse = false) : f.Ordered (axis.nodes f n) := by
  cases axis with
  | self => exact ordered_of_length (Nat.le_refl 1)
  | child => exact ordered_of_walk (f.children_sublist_walk n)
  | «attribute» => exact ordered_of_walk (List.filter_sublist.trans (f.attributes_sublist_walk n))
  | parent =>
    rw [nodes]
    cases f.parent? n <;> exact ordered_of_length (by simp)
  | descendant =>
    exact ordered_of_walk ((List.sublist_cons_self ..).trans (f.self_descendants_sublist_walk n))
  | descendantOrSelf => exact ordered_of_walk (f.self_descendants_sublist_walk n)
  | followingSibling =>
    rw [nodes]
    refine siblings_cases (f.Ordered ·) (ordered_of_length (Nat.zero_le 1)) fun p _ => ?_
    exact ordered_of_walk ((List.drop_sublist ..).trans (f.children_sublist_walk p))
  | _ => cases ha

theorem ordered_nodes_reverse (ha : axis.isReverse) : f.Ordered (axis.nodes f n).reverse := by
  cases axis with
  | ancestor =>
    exact (f.ordered_ancestors n).sublist (List.Sublist.reverse (List.sublist_cons_self ..))
  | ancestorOrSelf => exact f.ordered_ancestors n
  | precedingSibling =>
    rw [nodes]
    refine siblings_cases (fun ns => f.Ordered ns.reverse) (ordered_of_length (Nat.zero_le 1))
      fun p _ => ?_
    rw [List.reverse_reverse]
    exact ordered_of_walk ((List.take_sublist ..).trans (f.children_sublist_walk p))
  | _ => cases ha

theorem peers_nodes (ha : axis.isPeer) : f.Peers (axis.nodes f n) := by
  have among : ∀ p, f.Peers (f.children p) := fun p =>
    (f.peers_listed p).subset (List.subset_append_right ..)
  cases axis with
  | self => simp [nodes, Peers]
  | child => exact among n
  | «attribute» =>
    exact (f.peers_listed n).subset fun m hm => List.mem_append_left _ (List.mem_of_mem_filter hm)
  | parent =>
    rw [nodes]
    cases f.parent? n <;> simp [Peers]
  | followingSibling =>
    rw [nodes]
    exact siblings_cases (f.Peers ·) (by simp [Peers]) fun p _ =>
      (among p).subset (List.drop_subset ..)
  | precedingSibling =>
    rw [nodes]
    exact siblings_cases (f.Peers ·) (by simp [Peers]) fun p _ =>
      (among p).subset fun m hm => List.mem_of_mem_take (List.mem_reverse.1 hm)
  | _ => cases ha

theorem nodes_subset_walk (ha : axis.isSubtree) (hm : m ∈ axis.nodes f n) : m ∈ f.walk n := by
  cases axis with
  | self => exact List.mem_singleton.1 hm ▸ f.mem_walk_self n
  | child => exact (f.children_sublist_walk n).subset hm
  | «attribute» => exact (f.attributes_sublist_walk n).subset (List.mem_of_mem_filter hm)
  | descendant => exact (f.self_descendants_sublist_walk n).subset (List.mem_cons_of_mem _ hm)
  | descendantOrSelf => exact (f.self_descendants_sublist_walk n).subset hm
  | _ => cases ha

/-- The nodes on an axis are in the tree of their origin. -/
theorem root_of_mem_nodes (hm : m ∈ axis.nodes f n) : f.root m = f.root n := by
  have above : m ∈ f.ancestors n → f.root m = f.root n := fun hm =>
    (mem_walk.1 (mem_walk_of_mem_ancestors hm)).1
  have beside : ∀ p, f.parent? n = some p → m ∈ f.children p → f.root m = f.root n := by
    intro p hp hm
    rw [root_of_some hp, root_of_some (mem_listed_iff.1 (List.mem_append_right _ hm))]
  by_cases ha : axis.isSubtree
  · exact (mem_walk.1 (nodes_subset_walk ha hm)).1.symm
  cases axis with
  | parent => exact (root_of_some (Option.mem_toList.1 hm)).symm
  | ancestor => exact above hm
  | ancestorOrSelf => exact (List.mem_cons.1 hm).elim (fun h => h ▸ rfl) above
  | followingSibling =>
    rw [nodes] at hm
    refine siblings_cases (fun ns => m ∈ ns → f.root m = f.root n) (by simp) (fun p hp hm => ?_) hm
    exact beside p hp (List.mem_of_mem_drop hm)
  | precedingSibling =>
    rw [nodes] at hm
    refine siblings_cases (fun ns => m ∈ ns → f.root m = f.root n) (by simp) (fun p hp hm => ?_) hm
    exact beside p hp (List.mem_of_mem_take (List.mem_reverse.1 hm))
  | _ => exact absurd rfl ha

/-! ## Walking an axis -/

open Producer (Lists Draws)

variable {h : Host} {access : Access} {keep : Node → Bool} {vs : List Value}

/-- A question has the answer that is true of the forest. -/
theorem lists_query (hs : h.Serves f) {q : Query} {next : q.Answer → Producer}
    (hn : ∀ a, (Host.ofForest f).answer q = .ok a → Lists h vs (next a)) :
    Lists h vs (query access q next) := by
  cases access with
  | detached => exact .fail
  | live =>
    refine .of_draws fun _ _ _ hd => ?_
    rcases hd.of_ask with ⟨a, ha, hd⟩ | ⟨e, -, hd⟩
    · exact .inl ⟨next a, hn a (hs q a ha), hd⟩
    · exact .inr ⟨⟨e, hd.1⟩, hd.2⟩

theorem lists_emitAll {rest : Producer} (hr : Lists h vs rest) (ns : List Node) :
    Lists h ((ns.filter keep).map .node ++ vs) (emitAll keep ns rest) := by
  induction ns with
  | nil => exact hr
  | cons n ns ih =>
    rw [emitAll, List.foldr_cons, ← emitAll, List.filter_cons]
    split
    · exact ih.emit
    · exact ih

theorem children_of_not_isParent (hn : ¬n.kind.isParent) : f.children n = [] := by
  rw [children]
  rcases ht : f.subtree? n with _ | t
  · rfl
  · have hk : t.kind = n.kind := by rw [← (subtree?_eq_some.1 ht).2]; rfl
    cases t <;> first | rfl | exact absurd (hk ▸ rfl) hn

theorem lists_below (hs : h.Serves f) {fuel : Nat} (hf : n.height ≤ fuel)
    {rest : Unit → Producer} (hr : Lists h vs (rest ())) :
    Lists h (((f.descendants n).filter keep).map .node ++ vs) (below access keep fuel n rest) := by
  induction fuel generalizing n vs rest with
  | zero =>
    have hc : f.children n = [] := List.eq_nil_iff_forall_not_mem.2 fun c hc => by
      have := children_height hc
      omega
    rw [descendants_eq, hc]
    exact hr
  | succ fuel ih =>
    rw [below]
    split
    case isFalse hn =>
      rw [descendants_eq, children_of_not_isParent hn]
      exact hr
    case isTrue =>
      refine lists_query hs fun cs hcs => ?_
      cases hcs
      have hlower : ∀ c ∈ f.children n, c.height ≤ fuel := fun c hc => by
        have := children_height hc
        omega
      rw [descendants_eq]
      generalize f.children n = cs at hlower ⊢
      induction cs with
      | nil => exact hr
      | cons c cs ihcs =>
        have hrest := ihcs fun c hc => hlower c (List.mem_cons_of_mem _ hc)
        have hc := ih (hlower c List.mem_cons_self) hrest
        rw [List.flatMap_cons, List.cons_append, List.filter_cons, List.foldr_cons]
        split
        · simpa using hc.emit
        · simpa using hc

theorem lists_above (hs : h.Serves f) {fuel : Nat} (hf : n.path.length < fuel) :
    Lists h (((f.ancestors n).filter keep).map .node) (above access keep fuel n) := by
  induction fuel generalizing n with
  | zero => omega
  | succ fuel ih =>
    refine lists_query hs fun p hp => ?_
    cases hp
    rcases hp : f.parent? n with _ | p
    · rw [ancestors_of_none hp]
      exact .done
    · have := parent?_length hp
      have hp' := ih (n := p) (by omega)
      rw [ancestors_of_some hp, List.filter_cons]
      simp only
      split
      · exact hp'.emit
      · exact hp'

theorem lists_siblings (hs : h.Serves f) (following : Bool) :
    Lists h (((f.siblings n fun all =>
      if following then all.drop (all.idxOf n + 1) else (all.take (all.idxOf n)).reverse).filter
        keep).map .node) (siblings access keep following n) := by
  rw [siblings, Forest.siblings]
  split
  · exact .done
  · refine lists_query hs fun p hp => ?_
    cases hp
    rcases f.parent? n with _ | p
    · exact .done
    · refine lists_query hs fun cs hcs => ?_
      cases hcs
      simp only [List.idxOf_eq_getD_idxOf?]
      rcases (f.children p).idxOf? n with _ | i
      · exact .fail
      · simpa using lists_emitAll .done _

/-- A walk gives the nodes on its axis that pass the test. -/
theorem lists_walk (hs : h.Serves f) (axis : Axis) (test : NodeTest) (n : Node) :
    Lists h (((axis.nodes f n).filter (test.admits axis.principalKind)).map .node)
      (axis.walk access test n) := by
  have all : ∀ {keep ns}, Lists h ((ns.filter keep).map .node) (emitAll keep ns .done) :=
    fun {keep ns} => by simpa using lists_emitAll .done ns
  have orSelf : ∀ {keep : Node → Bool} {ns p}, Lists h ((ns.filter keep).map .node) p →
      Lists h (((n :: ns).filter keep).map .node) (emitAll keep [n] p) := fun {keep ns p} hp => by
    rw [← List.singleton_append, List.filter_append, List.map_append]
    exact lists_emitAll hp [n]
  have below : ∀ {keep}, Lists h (((f.descendants n).filter keep).map .node)
      (below access keep n.height n fun _ => .done) := fun {keep} => by
    rw [← List.append_nil (((f.descendants n).filter keep).map Value.node)]
    exact lists_below hs (Nat.le_refl _) .done
  cases axis with
  | self => exact all
  | child =>
    rw [walk, nodes]
    split
    · exact lists_query hs fun cs hcs => by cases hcs; exact all
    · rw [children_of_not_isParent ‹_›]
      exact .done
  | «attribute» =>
    rw [walk, nodes]
    split
    · exact lists_query hs fun cs hcs => by cases hcs; exact all
    · rw [Node.attributes_of_kind ‹_›]
      exact .done
  | parent => exact lists_query hs fun p hp => by cases hp; exact all
  | descendant => exact below
  | descendantOrSelf => exact orSelf below
  | ancestor => exact lists_above hs (Nat.lt_succ_self _)
  | ancestorOrSelf => exact orSelf (lists_above hs (Nat.lt_succ_self _))
  | followingSibling => exact lists_siblings hs true
  | precedingSibling => exact lists_siblings hs false

end Axis

end XPath
