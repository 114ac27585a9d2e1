import XPath.Expr.Evaluate
import XPath.Proofs.Nodes.Enumeration

/-!
# Axis steps

A step from a node provides the nodes that stand on its axis and pass its test, in the order of the axis
(`Expr.step_enumerates`).
-/

namespace XPath

namespace Expr

open Axis Forest

variable {h : Host} {f : Forest} {n : Node} {s : Session}

/-- Over a host that answers about a forest, however late, a step provides the nodes that stand on its
axis and pass the test, each once and in the order of the axis. Only elements and documents have
children and descendants, and only elements have attributes, of which namespace declarations are none.
An attribute has its element as its parent and as the first node above it, and no siblings. Between
other nodes, axes are the inverse of one another in pairs. -/
theorem step_enumerates (hs : h.answer = (Host.ofForest f).answer) (s : Session) (n : Node) :
    (∀ (axis : Axis) (test : NodeTest) (notes : Notes) (c : Context),
      c.item = some (.node n) → notes.cached? = none →
      ∃ p, (leaf (.step axis test) notes).evaluate c .live = .ok p ∧ ∃ ms : List Node,
        p.Provides h s (ms.map .node) none ∧
        (∀ m, m ∈ ms ↔ axis.Relates f n m ∧ test.admits axis.principalKind m = true) ∧
        ms.Nodup ∧ ms.Pairwise (axis.Follows f)) ∧
    (n.kind ≠ .element → n.kind ≠ .document →
      ∀ m, ¬Relates f .child n m ∧ ¬Relates f .descendant n m) ∧
    (∀ m, Relates f .attribute n m →
      n.kind = .element ∧ m.kind = .attribute ∧ m.isNamespaceDeclaration = false) ∧
    (∀ a ∈ f.attributes n, (∀ m, Relates f .parent a m ↔ m = n) ∧
      (∃ above, (Axis.ancestor.walk .live .anyKind a).Provides h s ((n :: above).map .node) none) ∧
      ∀ m, ¬Relates f .followingSibling a m ∧ ¬Relates f .precedingSibling a m) ∧
    ∀ m, n.kind ≠ .attribute → m.kind ≠ .attribute →
      (Relates f .child n m ↔ Relates f .parent m n) ∧
      (Relates f .descendant n m ↔ Relates f .ancestor m n) ∧
      (Relates f .followingSibling n m ↔ Relates f .precedingSibling m n) := by
  refine ⟨fun axis test notes c hc hnotes => ?_, fun he hd m => ?_, fun m hm => ?_, fun a ha => ?_,
    fun m hn hm => ⟨relates_child hm, relates_descendant hm, ?_⟩⟩
  · refine ⟨axis.walk .live test n, ?_, _, walk_provides hs axis test n s, fun m => ?_, ?_, ?_⟩
    · rw [evaluate, Notes.recall, hnotes]
      simp only [Leaf.meaning, hc]
    · rw [List.mem_filter, mem_nodes]
    · exact (nodes_nodup f axis n).filter _
    · exact (nodes_follow f axis n).sublist List.filter_sublist
  · refine not_relates_of_not_isParent ?_
    cases hk : n.kind <;> simp_all [NodeKind.isParent]
  · refine ⟨?_, kind_of_mem_attributes hm.1, hm.2⟩
    by_contra hk
    have hnone : f.attributes n = [] := Node.attributes_of_kind hk
    exact List.not_mem_nil (hnone ▸ hm.1)
  · have hp : f.parent? a = some n := relates_parent.1 (.inl ha)
    have hk := kind_of_mem_attributes ha
    refine ⟨fun m => ?_, ⟨f.ancestors n, ?_⟩, fun m => ⟨fun h => h.1 hk, fun h => h.1 hk⟩⟩
    · rw [relates_parent, hp, Option.some.injEq, eq_comm]
    · have hall : (Axis.ancestor.nodes f a).filter (NodeTest.anyKind.admits .element) =
          n :: f.ancestors n := by
        rw [nodes, ancestors_of_some hp]
        exact List.filter_eq_self.2 fun _ _ => rfl
      exact hall ▸ walk_provides hs .ancestor .anyKind a s
  · rw [Relates, Relates, and_iff_right hn, and_iff_right hm]

/-- The siblings before the last of three texts, over a host that suspends before every answer. -/
theorem step_enumerates_preceding :
    let forest : Forest := [.element ⟨none, "r", none⟩ [] [.text "x", .text "y", .text "z"]]
    let host : Host := { Host.ofForest forest with delay := fun _ _ => 1 }
    let text (i : Nat) : Node := ⟨0, [.child i], .text, none, 0⟩
    ∃ p, (step .precedingSibling (.kind .text)).evaluate (.initial (some (.node (text 2))) []) .live =
        .ok p ∧
      ∃ ms : List Node, p.Provides host .empty (ms.map .node) none ∧ text 0 ∈ ms ∧ text 1 ∈ ms ∧
        ms.Pairwise (Axis.precedingSibling.Follows forest) := by
  intro forest host text
  obtain ⟨p, hp, ms, hms, hmem, -, horder⟩ :=
    (step_enumerates (h := host) (f := forest) rfl .empty (text 2)).1 .precedingSibling (.kind .text)
      .blank (.initial (some (.node (text 2))) []) rfl rfl
  have before (i : Nat) (hi : [text i, text 2].Sublist (forest.children
      ⟨0, [], .element, some ⟨none, "r", none⟩, 1⟩)) : text i ∈ ms :=
    (hmem _).2 ⟨⟨by decide, _, hi⟩, rfl⟩
  exact ⟨p, hp, ms, hms, before 0 (by decide), before 1 (by decide), horder⟩

end Expr

end XPath
