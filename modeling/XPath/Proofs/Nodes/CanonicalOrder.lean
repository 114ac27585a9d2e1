import XPath.Nodes.Sort
import XPath.Proofs.Lazy.Provision
import XPath.Proofs.Nodes.KeyRuns
import XPath.Proofs.Nodes.Sorting

/-!
# Canonical order

Over a host that answers about a forest, sorting a list of nodes provides its document order
(`sortedNodes_canonical`): every node of the list once, tree after tree as the list first comes to them,
and the nodes of one tree as a walk from its root meets them. A list with anything else in it is refused
before any item is given.
-/

namespace XPath

open Producer

variable {h : Host} {f : Forest} {s : Session} {ns ms : List Node} {vs : List Value}

/-! ## Comparing positions -/

namespace Forest

/-- A node stands before another one: its tree comes first in the list, or they are in one tree and a
walk meets it first. -/
def StandsBefore (f : Forest) (ns : List Node) (n m : Node) : Prop :=
  if f.root n = f.root m then [n, m].Sublist (f.walk (f.root n))
  else (ns.map f.root).idxOf (f.root n) < (ns.map f.root).idxOf (f.root m)

theorem standsBefore_of_precedes {n m : Node} (hn : n ∈ ns) (hm : m ∈ ns)
    (h : f.Precedes (f.roots ns).idxOf n m) : f.StandsBefore ns n m := by
  rw [StandsBefore]
  split
  case isTrue hr =>
    refine (sublist_walk_iff hr).2 ?_
    rcases h with hlt | ⟨-, hlt⟩
    · exact absurd (hr ▸ hlt) (Nat.lt_irrefl _)
    · exact hlt
  case isFalse hr =>
    have hlt := h.resolve_right fun hk => hr hk.1
    exact (idxOf_eraseDups_lt (List.mem_map_of_mem hn) (List.mem_map_of_mem hm)).1 hlt

theorem documentOrder_standsBefore (f : Forest) (ns : List Node) :
    (f.documentOrder ns).Pairwise (f.StandsBefore ns) :=
  (f.documentOrder_pairwise ns).imp_of_mem fun hn hm =>
    standsBefore_of_precedes (mem_documentOrder.1 hn) (mem_documentOrder.1 hm)

/-- The nodes of a list that have a property, each of them once, in document order. -/
structure Selects (f : Forest) (ns : List Node) (P : Node → Prop) (ms : List Node) : Prop where
  mem : ∀ n, n ∈ ms ↔ n ∈ ns ∧ P n
  nodup : ms.Nodup
  order : ms.Pairwise (f.StandsBefore ns)

theorem selects_filter {P : Node → Prop} [DecidablePred P] :
    f.Selects ns P ((f.documentOrder ns).filter P) where
  mem n := by rw [List.mem_filter, mem_documentOrder, decide_eq_true_eq]
  nodup := (f.ordered_documentOrder ns).nodup.filter _
  order := (f.documentOrder_standsBefore ns).filter _

theorem selects_sublist {n : Node} {P : Node → Prop} (hs : ms.Sublist (f.walk n))
    (hms : ∀ m, m ∈ ms ↔ m ∈ f.walk n ∧ P m) : f.Selects (f.walk n) P ms where
  mem := hms
  nodup := (ordered_of_walk hs).nodup
  order := by
    have hwalk := f.documentOrder_standsBefore (f.walk n)
    rw [(ordered_of_walk (List.Sublist.refl _)).eq] at hwalk
    exact hwalk.sublist hs

/-- In one tree, document order depends only on which nodes there are. -/
theorem documentOrder_of_tree (htree : ∀ n ∈ ns, ∀ m ∈ ns, f.root n = f.root m)
    (hmem : ∀ n, n ∈ ms ↔ n ∈ ns) : f.documentOrder ms = f.documentOrder ns := by
  have keys {l : List Node} {g : Node → Nat} (hl : l ⊆ ns) (hp : l.Pairwise (f.Precedes g)) :
      l.Pairwise (f.Precedes fun _ => 0) := by
    refine hp.imp_of_mem fun {a b} ha hb hab => .inr ?_
    have hr := htree a (hl ha) b (hl hb)
    exact hab.resolve_left fun hlt => absurd (hr ▸ hlt) (Nat.lt_irrefl _)
  refine pairwise_eq_of_mem (keys ?_ (f.documentOrder_pairwise ms))
    (keys ?_ (f.documentOrder_pairwise ns)) fun n => ?_
  · exact fun n hn => (hmem n).1 (mem_documentOrder.1 hn)
  · exact fun n hn => mem_documentOrder.1 hn
  · rw [mem_documentOrder, mem_documentOrder, hmem]

end Forest

/-! ## Lists of values -/

theorem nodesOf_map (ns : List Node) : nodesOf (ns.map .node) = .ok ns := by
  induction ns with
  | nil => rfl
  | cons n ns ih => rw [List.map_cons, nodesOf, ih]; rfl

/-- The first value that is not a node is refused. -/
theorem nodesOf_error (hv : ∃ v ∈ vs, v.isNode = false) :
    ∃ v, nodesOf vs = .error (notANode v) := by
  induction vs with
  | nil => exact absurd hv.choose_spec.1 List.not_mem_nil
  | cons w vs ih =>
    cases w with
    | node n =>
      obtain ⟨v, hv, hnode⟩ := hv
      have hin : v ∈ vs := (List.mem_cons.1 hv).resolve_left (by rintro rfl; cases hnode)
      obtain ⟨v', hv'⟩ := ih ⟨v, hin, hnode⟩
      exact ⟨v', by rw [nodesOf, hv']; rfl⟩
    | _ => exact ⟨_, rfl⟩

/-! ## What is provided -/

/-- Over a host that answers about a forest, however late, sorting a list of nodes provides each of them
once: the trees in the order in which the list first comes to them, and the nodes of one tree in the
order of the walk. For nodes of one tree it makes no difference how they are listed and how often. A list
with a value that is not a node fails with a type error before any item. -/
theorem sortedNodes_canonical (hs : h.answer = (Host.ofForest f).answer) (s : Session) :
    (∀ ns, (sortedNodes .live (ns.map .node)).Provides h s ((f.documentOrder ns).map .node) none ∧
      (f.documentOrder ns).Nodup ∧ (∀ n, n ∈ f.documentOrder ns ↔ n ∈ ns) ∧
      (f.documentOrder ns).Pairwise (f.StandsBefore ns) ∧
      ∀ ms, (∀ n ∈ ns, ∀ m ∈ ns, f.root n = f.root m) → (∀ n, n ∈ ms ↔ n ∈ ns) →
        f.documentOrder ms = f.documentOrder ns) ∧
    ∀ vs, (∃ v ∈ vs, v.isNode = false) →
      ∃ e, e.code = .XPTY0004 ∧ (sortedNodes .live vs).Provides h s [] (some e) := by
  refine ⟨fun ns => ⟨?_, (f.ordered_documentOrder ns).nodup, fun n => Forest.mem_documentOrder,
    f.documentOrder_standsBefore ns, fun ms => Forest.documentOrder_of_tree⟩, fun vs hvs => ?_⟩
  · have hsort : (Node.sort ns).run h = .ok (f.documentOrder ns) := by
      rw [Task.run_eq_of_answer hs, Node.sort_run]
    rw [sortedNodes, nodesOf_map]
    exact Yields.provides (.imp (fun d t => .perform hsort) (.ofList _ _)) rfl
  · obtain ⟨v, hv⟩ := nodesOf_error hvs
    refine ⟨notANode v, rfl, ?_⟩
    rw [sortedNodes, hv]
    exact Yields.provides (.failed .fail) rfl

/-- A text of its own, and an element with an attribute and a text, two of them listed twice; the host
suspends before every answer. -/
theorem sortedNodes_two_trees :
    let forest : Forest :=
      [.element ⟨none, "r", none⟩ [(⟨none, "k", none⟩, "1")] [.text "x"], .text "z"]
    let host : Host := { Host.ofForest forest with delay := fun _ _ => 1 }
    let r : Node := ⟨0, [], .element, some ⟨none, "r", none⟩, 1⟩
    let k : Node := ⟨0, [.attribute 0], .attribute, some ⟨none, "k", none⟩, 0⟩
    let x : Node := ⟨0, [.child 0], .text, none, 0⟩
    let z : Node := ⟨1, [], .text, none, 0⟩
    (sortedNodes .live ([z, x, r, k, x, z].map .node)).Provides host .empty ([z, r, k, x].map .node) none ∧
      ∃ e, e.code = .XPTY0004 ∧
        (sortedNodes .live [.node x, .boolean true]).Provides host .empty [] (some e) := by
  intro forest host r k x z
  have horder : forest.documentOrder [z, x, r, k, x, z] = [z, r, k, x] := by decide +kernel
  obtain ⟨hnodes, herror⟩ := sortedNodes_canonical (h := host) (f := forest) rfl .empty
  exact ⟨horder ▸ (hnodes [z, x, r, k, x, z]).1, herror _ ⟨.boolean true, by simp, rfl⟩⟩

end XPath
