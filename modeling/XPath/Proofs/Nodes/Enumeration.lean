import Mathlib.Logic.Relation
import XPath.Proofs.Lazy.Provision
import XPath.Proofs.Nodes.Axes
import XPath.Proofs.Nodes.KeyRuns

/-!
# Enumerating axes

An axis is a relation between nodes (`Axis.Relates`), which says nothing of how a walk goes. The nodes on
an axis are those that are related to its origin (`Axis.mem_nodes`), and they come in the order of the
axis (`Axis.nodes_follow`). Over a host that answers about a forest, a walk provides them
(`Axis.walk_provides`).
-/

namespace XPath

/-! ## Positions in a list -/

section

variable {α : Type} [DecidableEq α] {l : List α} {a b : α}

theorem mem_drop_idxOf (ha : a ∈ l) : b ∈ l.drop (l.idxOf a + 1) ↔ [a, b].Sublist l := by
  constructor
  · intro hb
    have hlt := List.idxOf_lt_length_of_mem ha
    have hl : l = l.take (l.idxOf a) ++ a :: l.drop (l.idxOf a + 1) := by
      conv_lhs => rw [← List.take_append_drop (l.idxOf a) l, List.drop_eq_getElem_cons hlt,
        List.getElem_idxOf]
    conv_rhs => rw [hl]
    exact ((List.singleton_sublist.2 hb).cons_cons a).trans (List.sublist_append_right ..)
  · intro hs
    obtain ⟨before, after, rfl, ha, hb⟩ := List.cons_sublist_iff.1 hs
    have hlt := List.idxOf_lt_length_of_mem ha
    rw [List.idxOf_append_of_mem ha, List.drop_append_of_le_length hlt]
    exact List.mem_append_right _ (List.singleton_sublist.1 hb)

theorem mem_take_idxOf (hl : l.Nodup) (ha : a ∈ l) :
    b ∈ l.take (l.idxOf a) ↔ [b, a].Sublist l := by
  constructor
  · intro hb
    have hlt := List.idxOf_lt_length_of_mem ha
    have ha : a ∈ l.drop (l.idxOf a) := by
      rw [List.drop_eq_getElem_cons hlt, List.getElem_idxOf]
      exact List.mem_cons_self
    conv_rhs => rw [← List.take_append_drop (l.idxOf a) l]
    exact (List.singleton_sublist.2 hb).append (List.singleton_sublist.2 ha)
  · intro hs
    obtain ⟨before, after, rfl, hb, ha⟩ := List.cons_sublist_iff.1 hs
    have hnot : a ∉ before := fun h =>
      (List.nodup_append.1 hl).2.2 a h a (List.singleton_sublist.1 ha) rfl
    rw [List.idxOf_append_of_notMem hnot, List.take_append]
    exact List.mem_append_left _ (by rwa [List.take_of_length_le (Nat.le_add_right ..)])

end

/-! ## Relations -/

namespace Axis

open Forest Relation

variable {f : Forest} {axis : Axis} {n m p : Node}

/-- The second node stands on the axis of the first one. -/
def Relates (f : Forest) : Axis → Node → Node → Prop
  | .self, n, m => m = n
  | .child, n, m => m ∈ f.children n
  | .attribute, n, m => m ∈ f.attributes n ∧ m.isNamespaceDeclaration = false
  | .parent, n, m => n ∈ f.attributes m ∨ n ∈ f.children m
  | .descendant, n, m => TransGen (fun a b => b ∈ f.children a) n m
  | .descendantOrSelf, n, m => ReflTransGen (fun a b => b ∈ f.children a) n m
  | .ancestor, n, m => TransGen (fun a b => a ∈ f.attributes b ∨ a ∈ f.children b) n m
  | .ancestorOrSelf, n, m => ReflTransGen (fun a b => a ∈ f.attributes b ∨ a ∈ f.children b) n m
  | .followingSibling, n, m => n.kind ≠ .attribute ∧ ∃ p, [n, m].Sublist (f.children p)
  | .precedingSibling, n, m => n.kind ≠ .attribute ∧ ∃ p, [m, n].Sublist (f.children p)

theorem relates_parent : Relates f .parent n m ↔ f.parent? n = some m := by
  rw [Relates, ← List.mem_append, ← listed, mem_listed_iff]

theorem mem_descendants : m ∈ f.descendants n ↔ Relates f .descendant n m := by
  induction n using listed_induction (f := f) with
  | up n ih =>
    rw [descendants_eq, List.mem_flatMap, Relates, TransGen.head'_iff]
    refine exists_congr fun c => and_congr_right fun hc => ?_
    rw [List.mem_cons, ih c (List.mem_append_right _ hc), Relates, reflTransGen_iff_eq_or_transGen]

theorem mem_ancestors : m ∈ f.ancestors n ↔ Relates f .ancestor n m := by
  induction n using parent_induction (f := f) with
  | top n hn =>
    rw [ancestors_of_none hn, Relates, TransGen.head'_iff]
    refine iff_of_false List.not_mem_nil ?_
    rintro ⟨p, hp, -⟩
    cases hn.symm.trans (relates_parent.1 hp)
  | down n p hn ih =>
    have hp (q : Node) : n ∈ f.attributes q ∨ n ∈ f.children q ↔ q = p := by
      change Relates f .parent n q ↔ _
      rw [relates_parent, hn, Option.some.injEq, eq_comm]
    rw [ancestors_of_some hn, Relates, TransGen.head'_iff, List.mem_cons, ih, Relates]
    simp only [hp, exists_eq_left, reflTransGen_iff_eq_or_transGen]

theorem kind_of_mem_attributes (hm : m ∈ f.attributes n) : m.kind = .attribute := by
  rw [attributes] at hm
  split at hm
  · obtain ⟨x, -, rfl⟩ := List.mem_map.1 hm
    rfl
  · cases hm

/-- Only attributes have a parent that does not have them as children. -/
theorem mem_children_of_parent (hp : f.parent? n = some p) (hk : n.kind ≠ .attribute) :
    n ∈ f.children p :=
  (relates_parent.2 hp).resolve_left fun h => hk (kind_of_mem_attributes h)

/-- The siblings that a part of the children makes up, if it is a matter of the list of children. -/
theorem mem_siblings {part : List Node → List Node} {R : List Node → Prop}
    (hpart : ∀ p, n ∈ f.children p → (m ∈ part (f.children p) ↔ R (f.children p)))
    (hmem : ∀ p, R (f.children p) → n ∈ f.children p) :
    m ∈ f.siblings n part ↔ n.kind ≠ .attribute ∧ ∃ p, R (f.children p) := by
  rw [Forest.siblings]
  split
  case isTrue hk => exact iff_of_false List.not_mem_nil fun h => h.1 hk
  case isFalse hk =>
    rcases hp : f.parent? n with _ | p
    · refine iff_of_false List.not_mem_nil ?_
      rintro ⟨-, q, hq⟩
      cases hp.symm.trans (relates_parent.1 (.inr (hmem q hq)))
    · have hn : n ∈ f.children p := mem_children_of_parent hp hk
      refine (hpart p hn).trans ⟨fun h => ⟨hk, p, h⟩, ?_⟩
      rintro ⟨-, q, hq⟩
      cases hp.symm.trans (relates_parent.1 (.inr (hmem q hq)))
      exact hq

/-- The nodes on an axis are those that are related. -/
theorem mem_nodes : m ∈ axis.nodes f n ↔ axis.Relates f n m := by
  cases axis with
  | self => exact List.mem_singleton
  | child => exact Iff.rfl
  | «attribute» => simp [nodes, Relates]
  | parent => rw [nodes, Option.mem_toList, relates_parent]
  | descendant => exact mem_descendants
  | descendantOrSelf =>
    rw [nodes, List.mem_cons, mem_descendants, Relates, Relates, reflTransGen_iff_eq_or_transGen]
  | ancestor => exact mem_ancestors
  | ancestorOrSelf =>
    rw [nodes, List.mem_cons, mem_ancestors, Relates, Relates, reflTransGen_iff_eq_or_transGen]
  | followingSibling =>
    rw [nodes, Relates]
    exact mem_siblings (R := [n, m].Sublist) (fun p hn => mem_drop_idxOf hn) fun p hs =>
      hs.subset List.mem_cons_self
  | precedingSibling =>
    rw [nodes, Relates]
    refine mem_siblings (R := [m, n].Sublist) (fun p hn => ?_) fun p hs => hs.subset (by simp)
    rw [List.mem_reverse]
    exact mem_take_idxOf ((f.listed_nodup p).sublist (List.sublist_append_right ..)) hn

/-! ### Attributes and other nodes -/

theorem not_attribute_of_mem_listed (hm : m ∈ f.listed n) : n.kind ≠ .attribute := by
  intro hk
  have hchildren : f.children n = [] := children_of_not_isParent (by rw [hk]; decide)
  have hattributes : f.attributes n = [] := Node.attributes_of_kind (by rw [hk]; decide)
  rw [listed, hchildren, hattributes] at hm
  cases hm

theorem not_relates_of_not_isParent (hn : ¬n.kind.isParent) :
    ¬Relates f .child n m ∧ ¬Relates f .descendant n m := by
  have hc : f.children n = [] := children_of_not_isParent hn
  rw [← mem_nodes, ← mem_nodes, nodes, nodes, descendants_eq, hc]
  exact ⟨List.not_mem_nil, List.not_mem_nil⟩

/-- Between nodes that are not attributes, a child has its parent. -/
theorem relates_child (hm : m.kind ≠ .attribute) : Relates f .child n m ↔ Relates f .parent m n :=
  ⟨.inr, fun h => h.resolve_left fun ha => hm (kind_of_mem_attributes ha)⟩

theorem relates_descendant (hm : m.kind ≠ .attribute) :
    Relates f .descendant n m ↔ Relates f .ancestor m n := by
  constructor
  · intro h
    have hle : (fun a b => b ∈ f.children a) ≤
        Function.swap fun a b => a ∈ f.attributes b ∨ a ∈ f.children b := fun _ _ => .inr
    exact transGen_swap.1 (TransGen.mono hle _ _ h)
  · intro h
    induction h using TransGen.head_induction_on with
    | single h => exact .single ((relates_child hm).2 h)
    | head h _ ih =>
      have hp := (relates_child hm).2 h
      exact (ih (not_attribute_of_mem_listed (List.mem_append_right _ hp))).tail hp

/-! ## Order -/

/-- Nodes come in the order of the axis: as a walk from the root meets them, or the other way round. -/
def Follows (f : Forest) (axis : Axis) (n m : Node) : Prop :=
  if axis.isReverse then [m, n].Sublist (f.walk (f.root m)) else [n, m].Sublist (f.walk (f.root n))

theorem nodes_nodup (f : Forest) (axis : Axis) (n : Node) : (axis.nodes f n).Nodup := by
  cases ha : axis.isReverse with
  | false => exact (ordered_nodes ha).nodup
  | true => exact List.nodup_reverse.1 (ordered_nodes_reverse ha).nodup

theorem nodes_follow (f : Forest) (axis : Axis) (n : Node) :
    (axis.nodes f n).Pairwise (axis.Follows f) := by
  have before {ns : List Node} (ho : f.Ordered ns) (hns : ∀ m ∈ ns, f.root m = f.root n) :
      ns.Pairwise fun a b => [a, b].Sublist (f.walk (f.root a)) := by
    obtain ⟨g, hg⟩ := ho
    refine hg.imp_of_mem fun {a b} ha hb hab => ?_
    have hr : f.root a = f.root b := (hns a ha).trans (hns b hb).symm
    exact (sublist_walk_iff hr).2 (hab.resolve_left fun hlt => absurd (hr ▸ hlt) (Nat.lt_irrefl _)).2
  unfold Follows
  cases ha : axis.isReverse with
  | false => exact before (ordered_nodes ha) fun m => root_of_mem_nodes
  | true =>
    refine List.pairwise_reverse.1 (before (ordered_nodes_reverse ha) fun m hm => ?_)
    exact root_of_mem_nodes (List.mem_reverse.1 hm)

end Axis

/-! ## Walks end -/

namespace Producer

variable {h : Host} {p rest : Producer} {s t : Session} {vs ws : List Value} {v : Value}

/-- In every session there is an end without an error. -/
def Ends (h : Host) (p : Producer) : Prop := ∀ s, ∃ vs t, Yields h p s vs none t

namespace Ends

theorem done : Ends h .done := fun s => ⟨[], s, .finish .done⟩

theorem emit (hr : Ends h rest) : Ends h (.emit v rest) := by
  intro s
  obtain ⟨vs, t, hy⟩ := hr s
  exact ⟨v :: vs, t, .item .emit hy⟩

theorem ask {q : Query} {k : q.Answer → Producer} {a : q.Answer} (ha : h.answer q = .ok a)
    (hk : Ends h (k a)) : Ends h (.ask q k) := by
  intro s
  obtain ⟨vs, t, hy⟩ := hk s
  exact ⟨vs, t, .imp (fun _ _ => .ask ha) hy⟩

end Ends

/-- What is listed is yielded if there is an end. -/
theorem Lists.yields (hl : Lists h vs p) (hp : Ends h p) (s : Session) : Yields h p s vs none s := by
  obtain ⟨ws, t, hy⟩ := hp s
  suffices ws = vs ∧ t = s by rwa [this.1, this.2] at hy
  clear hp
  generalize he : (none : Option Error) = e at hy
  induction hy generalizing vs with
  | finish hd =>
    cases vs with
    | nil => exact ⟨rfl, (hl _ _ _ hd).1⟩
    | cons => rcases (hl _ _ _ hd).2 with ⟨q, hq, -⟩ | ⟨e, he⟩ <;> cases ‹_ = _›
  | failed => cases he
  | item hd _ ih =>
    cases vs with
    | nil => rcases (hl _ _ _ hd).2 with hq | ⟨e, he⟩ <;> cases ‹_ = _›
    | cons =>
      obtain ⟨rfl, ⟨q, hq, hl⟩ | ⟨e, he⟩⟩ := hl _ _ _ hd
      · cases hq
        obtain ⟨rfl, rfl⟩ := ih hl he
        exact ⟨rfl, rfl⟩
      · cases he

end Producer

namespace Axis

open Forest Producer

variable {h : Host} {f : Forest} {axis : Axis} {n m : Node} {keep : Node → Bool} {rest : Producer}

theorem ends_emitAll (hr : Ends h rest) (ns : List Node) : Ends h (emitAll keep ns rest) := by
  induction ns with
  | nil => exact hr
  | cons n ns ih =>
    rw [emitAll, List.foldr_cons, ← emitAll]
    split
    · exact ih.emit
    · exact ih

theorem ends_query (hs : h.answer = (Host.ofForest f).answer) {q : Query} {next : q.Answer → Producer}
    {a : q.Answer} (ha : (Host.ofForest f).answer q = .ok a) (hn : Ends h (next a)) :
    Ends h (query .live q next) := .ask (hs ▸ ha) hn

theorem ends_below (hs : h.answer = (Host.ofForest f).answer) {fuel : Nat} {rest : Unit → Producer}
    (hr : Ends h (rest ())) : Ends h (below .live keep fuel n rest) := by
  induction fuel generalizing n rest with
  | zero => exact hr
  | succ fuel ih =>
    rw [below]
    split
    case isFalse => exact hr
    case isTrue =>
      refine ends_query hs rfl ?_
      induction f.children n with
      | nil => exact hr
      | cons c cs ihcs =>
        rw [List.foldr_cons]
        split
        · exact (ih ihcs).emit
        · exact ih ihcs

theorem ends_above (hs : h.answer = (Host.ofForest f).answer) (fuel : Nat) :
    Ends h (above .live keep fuel n) := by
  induction fuel generalizing n with
  | zero => exact .done
  | succ fuel ih =>
    refine ends_query hs rfl ?_
    rcases f.parent? n with _ | p
    · exact .done
    · dsimp only
      split
      · exact ih.emit
      · exact ih

/-- A node that is not an attribute is found among the children of its parent. -/
theorem ends_siblings (hs : h.answer = (Host.ofForest f).answer) (following : Bool) :
    Ends h (siblings .live keep following n) := by
  rw [siblings]
  split
  case isTrue => exact .done
  case isFalse hk =>
    refine ends_query hs rfl ?_
    rcases hp : f.parent? n with _ | p
    · exact .done
    · refine ends_query hs rfl ?_
      rw [Node.idxOf?_of_mem (mem_children_of_parent hp hk)]
      exact ends_emitAll .done _

theorem ends_walk (hs : h.answer = (Host.ofForest f).answer) (axis : Axis) (test : NodeTest)
    (n : Node) : Ends h (axis.walk .live test n) := by
  have all {keep : Node → Bool} (ns : List Node) : Ends h (emitAll keep ns .done) :=
    ends_emitAll .done ns
  cases axis with
  | self => exact all [n]
  | child =>
    rw [walk]
    split
    · exact ends_query hs rfl (all _)
    · exact .done
  | «attribute» =>
    rw [walk]
    split
    · exact ends_query hs rfl (all _)
    · exact .done
  | parent => exact ends_query hs rfl (all _)
  | descendant => exact ends_below hs .done
  | descendantOrSelf => exact ends_emitAll (ends_below hs .done) [n]
  | ancestor => exact ends_above hs _
  | ancestorOrSelf => exact ends_emitAll (ends_above hs _) [n]
  | followingSibling => exact ends_siblings hs true
  | precedingSibling => exact ends_siblings hs false

theorem walk_provides (hs : h.answer = (Host.ofForest f).answer) (axis : Axis) (test : NodeTest)
    (n : Node) (s : Session) : (axis.walk .live test n).Provides h s
      (((axis.nodes f n).filter (test.admits axis.principalKind)).map .node) none := by
  have hserves : h.Serves f := fun q a ha => by rwa [hs] at ha
  exact ((lists_walk hserves axis test n).yields (ends_walk hs axis test n) s.calm).provides rfl

end Axis

end XPath
