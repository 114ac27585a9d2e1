import XPath.Proofs.Library.Calls
import XPath.Proofs.Nodes.CanonicalOrder
import XPath.Proofs.Nodes.Enumeration

/-!
# Selecting by nesting

The nodes below a node follow it in document order without a gap (`Forest.mem_walk_of_between`). So one
pass over the sorted nodes, in which the keys of nodes are compared with those that follow or with the
last one kept, finds the innermost nodes of a list (`Node.innermost_eq`) and the outermost ones
(`Node.outermost_eq`). Over a host that answers about a forest, calls provide them
(`Forest.nesting_selected`).
-/

namespace XPath

variable {f : Forest} {n m p : Node} {ns l : List Node} {g : Node → Nat}

/-! ## Runs -/

/-- What has a property of which every element before another one that has it has it, too, stands at the
front of a list. -/
theorem takeWhile_eq_filter {α : Type} {q : α → Bool} {l : List α}
    (hl : l.Pairwise fun x y => q y → q x) : l.takeWhile q = l.filter q := by
  induction l with
  | nil => rfl
  | cons x l ih =>
    obtain ⟨hx, hl⟩ := List.pairwise_cons.1 hl
    by_cases hq : q x
    · rw [List.takeWhile_cons_of_pos hq, List.filter_cons_of_pos hq, ih hl]
    · have hnone : ∀ y ∈ l, ¬q y := fun y hy hqy => hq (hx y hy hqy)
      rw [List.takeWhile_cons_of_neg hq, List.filter_cons_of_neg hq, List.filter_eq_nil_iff.2 hnone]

namespace Forest

/-- A node stands before what lies below it. -/
theorem not_mem_walk_of_precedes (h : f.Precedes g n m) : n ∉ f.walk m := by
  intro hn
  rcases h with hlt | ⟨-, hlt⟩
  · exact absurd ((mem_walk.1 hn).1 ▸ hlt) (Nat.lt_irrefl _)
  have hsorted := f.walk_sorted m
  rw [walk_eq] at hn hsorted
  rcases List.mem_cons.1 hn with rfl | hn
  · exact List.lt_irrefl _ hlt
  · exact List.lt_irrefl _ (List.lt_trans hlt ((List.pairwise_cons.1 hsorted).1 n hn))

/-- What stands between a node and one below it lies below it, too. -/
theorem mem_walk_of_between (hnm : f.Precedes g n m) (hmp : f.Precedes g m p) (hp : p ∈ f.walk n) :
    m ∈ f.walk n := by
  obtain ⟨hr, hk⟩ := mem_walk.1 hp
  have hle {a b : Node} (h : f.Precedes g a b) : g (f.root a) ≤ g (f.root b) :=
    h.elim Nat.le_of_lt fun h => Nat.le_of_eq (congrArg g h.1)
  rcases hnm with hlt | ⟨hrm, hlt⟩
  · exact absurd (hr ▸ Nat.lt_of_lt_of_le hlt (hle hmp)) (Nat.lt_irrefl _)
  rcases hmp with hlt' | ⟨-, hlt'⟩
  · exact absurd (hrm ▸ hr ▸ hlt') (Nat.lt_irrefl _)
  refine mem_walk.2 ⟨hrm, Decidable.byContradiction fun hno => ?_⟩
  -- A key that does not begin with that of the node stands behind all that do.
  exact List.lt_irrefl _ (List.lt_trans hlt' (key_lt_of_lt hlt hno hk (List.prefix_refl _)))

/-! ## The two passes -/

/-- The nodes of a list that have no other node of it but attributes below them, in document order. -/
def innermost (f : Forest) (ns : List Node) : List Node :=
  (f.documentOrder ns).filter fun n => ∀ m ∈ ns, m.kind ≠ .attribute → n ∉ f.ancestors m

/-- The nodes of a list that have no node of it above them, in document order. -/
def outermost (f : Forest) (ns : List Node) : List Node :=
  (f.documentOrder ns).filter fun n => ∀ m ∈ ns, m ∉ f.ancestors n

end Forest

namespace Node

open Forest

/-- Of the nodes that follow one, those below it come first. -/
theorem any_below {roots : Roots} {q : Node → Bool} (hn : f.root n ∈ roots)
    (hl : (n :: l).Pairwise (f.Precedes g)) :
    ((keyed f roots l).takeWhile fun x => (keyIn f roots n).contains x.1).any (fun x => q x.2) ↔
      ∃ m ∈ l, m ∈ f.walk n ∧ q m := by
  obtain ⟨hfirst, hl⟩ := List.pairwise_cons.1 hl
  rw [takeWhile_eq_filter, List.any_filter, keyed, List.any_map, List.any_eq_true]
  · simp only [Function.comp_apply, Bool.and_eq_true, keyIn_contains hn]
  · refine List.pairwise_map.2 (hl.imp_of_mem fun hx _ hxy => ?_)
    simp only [keyIn_contains hn]
    exact mem_walk_of_between (hfirst _ hx) hxy

theorem innermost_keyed {roots : Roots} (hroots : ∀ n ∈ l, f.root n ∈ roots)
    (hl : l.Pairwise (f.Precedes g)) : innermost (keyed f roots l) =
      l.filter fun n => ∀ m ∈ l, m.kind ≠ .attribute → n ∉ f.ancestors m := by
  induction l with
  | nil => rfl
  | cons n l ih =>
    have hfirst := (List.pairwise_cons.1 hl).1
    have hbelow := any_below (q := fun m => m.kind != .attribute) (hroots n List.mem_cons_self) hl
    have ih := ih (fun m hm => hroots m (List.mem_cons_of_mem _ hm)) (List.pairwise_cons.1 hl).2
    -- The first node has none of the others above it.
    have hrest : (l.filter fun x => ∀ m ∈ n :: l, m.kind ≠ .attribute → x ∉ f.ancestors m) =
        l.filter fun x => ∀ m ∈ l, m.kind ≠ .attribute → x ∉ f.ancestors m := by
      refine List.filter_congr fun x hx => decide_eq_decide.2 ?_
      rw [List.forall_mem_cons]
      refine and_iff_right fun _ hin => ?_
      exact not_mem_walk_of_precedes (hfirst x hx) (mem_ancestors_iff.1 hin).1
    rw [keyed, List.map_cons, ← keyed, innermost, ih, List.filter_cons, hrest]
    by_cases hex : ∃ m ∈ l, m ∈ f.walk n ∧ (m.kind != .attribute) = true
    · obtain ⟨m, hm, hwalk, hkind⟩ := id hex
      have hlow : ¬∀ m ∈ n :: l, m.kind ≠ .attribute → n ∉ f.ancestors m := fun h =>
        h m (List.mem_cons_of_mem _ hm) (bne_iff_ne.1 hkind)
          (mem_ancestors_iff.2 ⟨hwalk, (hfirst m hm).ne⟩)
      rw [if_pos (hbelow.2 hex), if_neg (by rwa [decide_eq_true_eq])]
    · have hall : ∀ m ∈ n :: l, m.kind ≠ .attribute → n ∉ f.ancestors m := fun m hm hkind hin => by
        obtain ⟨hwalk, hne⟩ := mem_ancestors_iff.1 hin
        have hm := (List.mem_cons.1 hm).resolve_left hne.symm
        exact hex ⟨m, hm, hwalk, bne_iff_ne.2 hkind⟩
      rw [if_neg (mt hbelow.1 hex), if_pos (decide_eq_true hall)]

/-- What lies below a node that lies below an outer one lies below the outer one too. -/
theorem filter_skipped {outer : List Node} (ho : m ∈ outer) (hn : n ∈ f.walk m)
    (hl : (outer ++ n :: l).Pairwise (f.Precedes g)) :
    (l.filter fun x => ∀ y ∈ outer ++ n :: l, y ∉ f.ancestors x) =
      l.filter fun x => ∀ y ∈ outer ++ l, y ∉ f.ancestors x := by
  obtain ⟨-, -, houter⟩ := List.pairwise_append.1 hl
  refine List.filter_congr fun x hx => decide_eq_decide.2 ?_
  rw [List.forall_mem_append, List.forall_mem_append, List.forall_mem_cons]
  refine and_congr_right fun habove => and_iff_right fun hin => ?_
  have hxm := mem_walk_trans hn (mem_ancestors_iff.1 hin).1
  exact habove m ho (mem_ancestors_iff.2 ⟨hxm, (houter m ho x (List.mem_cons_of_mem _ hx)).ne⟩)

/-- No outer node reaches beyond a node that it does not have below it. -/
theorem filter_kept {outer : List Node} (hn : ∀ m ∈ outer, n ∉ f.walk m)
    (hl : (outer ++ n :: l).Pairwise (f.Precedes g)) :
    (l.filter fun x => ∀ y ∈ outer ++ n :: l, y ∉ f.ancestors x) =
      l.filter fun x => ∀ y ∈ n :: l, y ∉ f.ancestors x := by
  obtain ⟨-, hl', houter⟩ := List.pairwise_append.1 hl
  have hfirst := (List.pairwise_cons.1 hl').1
  refine List.filter_congr fun x hx => decide_eq_decide.2 ?_
  rw [List.forall_mem_append]
  refine and_iff_right fun m hm hin => hn m hm ?_
  exact mem_walk_of_between (houter m hm n List.mem_cons_self) (hfirst x hx) (mem_ancestors_iff.1 hin).1

/-- The last node kept stands before the others. What has been passed over since lies below it, and so
does what lies below that. -/
theorem outermost_keyed {roots : Roots} (outer : Option Node)
    (hroots : ∀ n ∈ outer.toList ++ l, f.root n ∈ roots)
    (hl : (outer.toList ++ l).Pairwise (f.Precedes g)) :
    outermost (outer.map (keyIn f roots)) (keyed f roots l) =
      l.filter fun n => ∀ m ∈ outer.toList ++ l, m ∉ f.ancestors n := by
  induction l generalizing outer with
  | nil => rfl
  | cons n l ih =>
    obtain ⟨-, hl', houter⟩ := List.pairwise_append.1 hl
    have hfirst := (List.pairwise_cons.1 hl').1
    have hinside : ((outer.map (keyIn f roots)).map (·.contains (keyIn f roots n))).getD false ↔
        ∃ o ∈ outer.toList, n ∈ f.walk o := by
      rcases outer with _ | o
      · simp
      · simp [keyIn_contains (hroots o List.mem_cons_self)]
    rw [keyed, List.map_cons, ← keyed, outermost, List.filter_cons]
    by_cases hex : ∃ o ∈ outer.toList, n ∈ f.walk o
    · obtain ⟨o, ho, hwalk⟩ := id hex
      have hlow : ¬∀ m ∈ outer.toList ++ n :: l, m ∉ f.ancestors n := fun h =>
        h o (List.mem_append_left _ ho)
          (mem_ancestors_iff.2 ⟨hwalk, (houter o ho n List.mem_cons_self).ne⟩)
      have hskip : (outer.toList ++ l).Sublist (outer.toList ++ n :: l) :=
        (List.sublist_cons_self n l).append_left _
      rw [if_pos (hinside.2 hex), if_neg (by rwa [decide_eq_true_eq]), filter_skipped ho hwalk hl]
      exact ih outer (fun m hm => hroots m (hskip.subset hm)) (hl.sublist hskip)
    · have hall : ∀ m ∈ outer.toList ++ n :: l, m ∉ f.ancestors n := fun m hm hin => by
        obtain ⟨hwalk, hne⟩ := mem_ancestors_iff.1 hin
        rcases List.mem_append.1 hm with hm | hm
        · exact hex ⟨m, hm, hwalk⟩
        · have hm := (List.mem_cons.1 hm).resolve_left hne
          exact not_mem_walk_of_precedes (hfirst m hm) hwalk
      have hnone : ∀ m ∈ outer.toList, n ∉ f.walk m := fun m hm hwalk => hex ⟨m, hm, hwalk⟩
      rw [if_neg (mt hinside.1 hex), if_pos (decide_eq_true hall), filter_kept hnone hl]
      exact congrArg (n :: ·) (ih (some n) (fun m hm => hroots m (List.mem_append_right _ hm)) hl')

theorem innermost_run (f : Forest) (ns : List Node) :
    innermost (keyed f (f.roots ns) (f.documentOrder ns)) = f.innermost ns := by
  rw [innermost_keyed (fun n hn => ?_) (f.documentOrder_pairwise ns), Forest.innermost]
  · simp only [mem_documentOrder]
  · exact List.mem_eraseDups.2 (List.mem_map_of_mem (mem_documentOrder.1 hn))

theorem outermost_run (f : Forest) (ns : List Node) :
    outermost none (keyed f (f.roots ns) (f.documentOrder ns)) = f.outermost ns := by
  have hroots : ∀ n ∈ f.documentOrder ns, f.root n ∈ f.roots ns := fun n hn =>
    List.mem_eraseDups.2 (List.mem_map_of_mem (mem_documentOrder.1 hn))
  have hpass : outermost none (keyed f (f.roots ns) (f.documentOrder ns)) =
      (f.documentOrder ns).filter fun n => ∀ m ∈ f.documentOrder ns, m ∉ f.ancestors n :=
    outermost_keyed none hroots (f.documentOrder_pairwise ns)
  rw [hpass, Forest.outermost]
  simp only [mem_documentOrder]

end Node

/-! ## Calls -/

open Producer

variable {h : Host} {c : CallContext} {a : Producer} {s t u : Session} {d : Draw}

/-- A selection reads its argument to the end and then sorts the nodes. -/
theorem Producer.Draws.selectNested {select : List (OrderKey × Node) → List Node}
    (hs : h.answer = (Host.ofForest f).answer) (ha : Yields h a s (ns.map .node) none t)
    (hd : Draws h (ofList ((select (Node.keyed f (f.roots ns) (f.documentOrder ns))).map .node)) t d u) :
    Draws h (selectNested .live a select) s d u := by
  have hnodes : ((ns.map Value.node).mapM fun v => expectNode (some v)) = .ok (ns.map some) := by
    clear ha hd
    induction ns with
    | nil => rfl
    | cons n ns ih =>
      rw [List.map_cons, List.mapM_cons, ih]
      rfl
  have hsort : (Node.sortWithKeys ((ns.map some).filterMap fun n => n)).run h =
      .ok (Node.keyed f (f.roots ns) (f.documentOrder ns)) := by
    have hsome : ((ns.map some).filterMap fun n => n) = ns := by simp
    rw [hsome, Task.run_eq_of_answer hs, Node.sortWithKeys_run]
  rw [XPath.selectNested, withAll]
  refine ha.drain ?_
  rw [hnodes]
  exact Draws.perform hsort hd

namespace Forest

/-- Over a host that answers about a forest, however late, calls with a list of nodes select by nesting.
The innermost nodes are those that lie above no listed node that is not an attribute, and the outermost
ones are those that lie below no listed node; in either case each is provided once, in document order. -/
theorem nesting_selected (hs : h.answer = (Host.ofForest f).answer) (hc : c.access = .live)
    (ha : Yields h a s.calm (ns.map .node) none t) :
    (f.Selects ns (fun n => ∀ m ∈ ns, m.kind ≠ .attribute → ¬Axis.Relates f .ancestor m n)
        (f.innermost ns) ∧
      ∃ p, (Function.builtin .innermost).invoke c [a] = .ok p ∧
        p.Provides h s ((f.innermost ns).map .node) none) ∧
    (f.Selects ns (fun n => ∀ m ∈ ns, ¬Axis.Relates f .ancestor n m) (f.outermost ns) ∧
      ∃ p, (Function.builtin .outermost).invoke c [a] = .ok p ∧
        p.Provides h s ((f.outermost ns).map .node) none) := by
  have htakes : SequenceType.Takes ⟨.known .node, .zeroOrMore⟩ (ns.map Value.node) (ns.map .node) := by
    refine ⟨rfl, List.forall₂_same.2 fun v hv => ?_⟩
    obtain ⟨n, -, rfl⟩ := List.mem_map.1 hv
    exact n.converts
  have harg {place : ParameterPlace} : Yields h (a.convert .live ⟨.known .node, .zeroOrMore⟩ place)
      s.calm (ns.map .node) none t := Yields.convert _ place ha htakes
  have hselect {place : ParameterPlace} {select : List (OrderKey × Node) → List Node}
      {ms : List Node} (hms : select (Node.keyed f (f.roots ns) (f.documentOrder ns)) = ms) :
      (selectNested .live (a.convert .live ⟨.known .node, .zeroOrMore⟩ place) select).Provides h s
        (ms.map .node) none := by
    subst hms
    exact Yields.provides (.imp (fun _ _ => .selectNested hs harg) (.ofList _ _)) rfl
  obtain ⟨context, access⟩ := c
  obtain rfl : access = .live := hc
  refine ⟨⟨?_, _, rfl, hselect (Node.innermost_run f ns)⟩,
    ?_, _, rfl, hselect (Node.outermost_run f ns)⟩
  · simp only [← Axis.mem_ancestors]
    exact selects_filter
  · simp only [← Axis.mem_ancestors]
    exact selects_filter

/-- Of the listed nodes, a text lies below one element and an attribute below the other one, which is
an innermost node all the same. The host suspends before every answer. -/
theorem nesting_selected_two_trees :
    let forest : Forest :=
      [.element ⟨none, "r", none⟩ [] [.element ⟨none, "e", none⟩ [] [.text "y"],
        .element ⟨none, "d", none⟩ [(⟨none, "k", none⟩, "1")] []], .text "z"]
    let host : Host := { Host.ofForest forest with delay := fun _ _ => 1 }
    let e : Node := ⟨0, [.child 0], .element, some ⟨none, "e", none⟩, 1⟩
    let y : Node := ⟨0, [.child 0, .child 0], .text, none, 0⟩
    let d : Node := ⟨0, [.child 1], .element, some ⟨none, "d", none⟩, 1⟩
    let k : Node := ⟨0, [.attribute 0, .child 1], .attribute, some ⟨none, "k", none⟩, 0⟩
    let z : Node := ⟨1, [], .text, none, 0⟩
    let call (b : Builtin) :=
      (Function.builtin b).invoke ⟨.empty, .live, .standard⟩ [ofList ([z, k, y, d, e, k, y].map .node)]
    (∃ p, call .innermost = .ok p ∧ p.Provides host .empty ([z, y, d, k].map .node) none) ∧
      ∃ p, call .outermost = .ok p ∧ p.Provides host .empty ([z, e, d].map .node) none := by
  intro forest host e y d k z call
  have hlist := Yields.ofList (h := host) ([z, k, y, d, e, k, y].map .node) Session.empty.calm
  obtain ⟨⟨-, hinner⟩, -, houter⟩ := nesting_selected (h := host) (f := forest)
    (c := ⟨.empty, .live, .standard⟩) (s := .empty) rfl rfl hlist
  have hinnermost : forest.innermost [z, k, y, d, e, k, y] = [z, y, d, k] := by decide +kernel
  have houtermost : forest.outermost [z, k, y, d, e, k, y] = [z, e, d] := by decide +kernel
  exact ⟨hinnermost ▸ hinner, houtermost ▸ houter⟩

end Forest

end XPath
