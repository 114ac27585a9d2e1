import Mathlib.Logic.Relation
import XPath.Proofs.Nodes.OrderKeys

/-!
# Key computations side by side

Any number of computations may share one order. Every one of them can be suspended at any question,
resumed later, or given up, and what it has noted by then is there for the others. Whatever has been
done before, the keys that are complete agree with the nodes they are keys of: with their identity,
with the walks of their trees, and with the way down to them (`Desk.keys_exact`).
-/

namespace XPath

open Relation

/-- An order with the computations under way, and the keys that are complete, the first one first. -/
structure Desk where
  order : DocumentOrder
  underway : List (Node × KeyProgress)
  keys : List (Node × OrderKey)

namespace Desk

variable {h : Host} {f : Forest} {d d' : Desk}

/-- A computation is started, or one of those under way is resumed. It stays where it is as long as
the host does not answer. -/
inductive Step (h : Host) (d : Desk) : Desk → Prop
  | start (n : Node) : Step h d { d with underway := d.underway ++ [(n, .start n)] }
  | ask {i : Nat} {n : Node} {progress : KeyProgress} {q : Query}
      {next : q.Answer → DocumentOrder × KeyProgress} {a : q.Answer} :
      d.underway[i]? = some (n, progress) → progress.turn d.order = .ask q next →
      h.answer q = .ok a →
      Step h d { d with order := (next a).1, underway := d.underway.set i (n, (next a).2) }
  | go {i : Nat} {n : Node} {progress progress' : KeyProgress} {order : DocumentOrder} :
      d.underway[i]? = some (n, progress) → progress.turn d.order = .go order progress' →
      Step h d { d with order := order, underway := d.underway.set i (n, progress') }
  | ready {i : Nat} {n : Node} {progress : KeyProgress} {key : OrderKey} {order : DocumentOrder} :
      d.underway[i]? = some (n, progress) → progress.turn d.order = .ready key order →
      Step h d { d with order := order, keys := d.keys ++ [(n, key)] }

/-- Nothing has been computed yet. -/
def empty : Desk := ⟨.start [], [], []⟩

/-- What steps lead to, starting with a new order. -/
def Reached (h : Host) (d : Desk) : Prop := ReflTransGen (Step h) empty d

/-- Everything on the desk is so in the forest: trees are numbered as their first keys came. -/
structure Right (f : Forest) (d : Desk) : Prop where
  agrees : d.order.Agrees f
  onWay : ∀ x ∈ d.underway, OnWay f x.1 x.2
  roots : d.order.roots = f.roots (d.keys.map (·.1))
  keys : ∀ x ∈ d.keys, x.2 = Node.keyIn f d.order.roots x.1

theorem right_empty (f : Forest) : Right f empty where
  agrees := DocumentOrder.agrees_start f []
  onWay _ hx := nomatch hx
  roots := rfl
  keys _ hx := nomatch hx

/-- A computation that goes on changes neither the numbers of trees nor what is complete. -/
theorem Right.nearer {i : Nat} {n : Node} {progress progress' : KeyProgress}
    {order : DocumentOrder} (hd : Right f d)
    (hn : progress.Nearer f n d.order order progress') :
    Right f { d with order := order, underway := d.underway.set i (n, progress') } where
  agrees := hn.agrees
  onWay x hx := by
    rcases List.mem_or_eq_of_mem_set hx with hx | rfl
    · exact hd.onWay x hx
    · exact hn.onWay
  roots := hn.roots.trans hd.roots
  keys x hx := (hd.keys x hx).trans (by rw [← hn.roots])

theorem roots_concat (f : Forest) (ns : List Node) (n : Node) :
    f.roots (ns ++ [n]) = Node.withRoot f (f.roots ns) n := by
  rw [← Node.withRoot_foldl_nil, ← Node.withRoot_foldl_nil, List.foldl_append]
  rfl

theorem Right.root_mem (hd : Right f d) {x : Node × OrderKey} (hx : x ∈ d.keys) :
    f.root x.1 ∈ d.order.roots := by
  rw [hd.roots]
  apply List.mem_eraseDups.2
  exact List.mem_map_of_mem (List.mem_map_of_mem hx)

/-- One more key is complete; those before it keep their meaning. -/
theorem Right.ready {n : Node} {order : DocumentOrder} (hd : Right f d)
    (hroots : order.roots = Node.withRoot f d.order.roots n) (ho : order.Agrees f) :
    Right f { d with order := order, keys := d.keys ++ [(n, Node.keyIn f order.roots n)] } where
  agrees := ho
  onWay := hd.onWay
  roots := by
    rw [List.map_append, List.map_singleton, roots_concat, ← hd.roots]
    exact hroots
  keys x hx := by
    rcases List.mem_append.1 hx with hx | hx
    · have hkey := hd.keys x hx
      rw [← Node.keyIn_withRoot (hd.root_mem hx) n, ← hroots] at hkey
      exact hkey
    · rw [List.mem_singleton.1 hx]

theorem Right.step (hs : h.Serves f) (hd : Right f d) (hstep : Step h d d') : Right f d' := by
  have turns : ∀ {i : Nat} {n : Node} {progress : KeyProgress}, d.underway[i]? = some (n, progress) →
      KeyProgress.Proper h f n d.order progress (progress.turn d.order) := by
    intro i n progress hi
    exact KeyProgress.proper_turn hs hd.agrees (hd.onWay _ (List.mem_of_getElem? hi))
  cases hstep with
  | start n =>
    refine ⟨hd.agrees, fun x hx => ?_, hd.roots, hd.keys⟩
    rcases List.mem_append.1 hx with hx | hx
    · exact hd.onWay x hx
    · rw [List.mem_singleton.1 hx]
      exact KeyProgress.onWay_start f n
  | ask hi hturn ha =>
    have hproper := turns hi
    rw [hturn] at hproper
    exact hd.nearer (hproper _ ha)
  | go hi hturn =>
    have hproper := turns hi
    rw [hturn] at hproper
    exact hd.nearer hproper
  | ready hi hturn =>
    have hproper := turns hi
    rw [hturn] at hproper
    obtain ⟨rfl, hroots, ho⟩ := hproper
    exact hd.ready hroots ho

theorem Reached.right (hs : h.Serves f) (hd : Reached h d) : Right f d := by
  induction hd with
  | refl => exact right_empty f
  | tail _ hstep ih => exact ih.step hs hstep

/-! ## Completion -/

/-- If the host answers, a computation that is resumed often enough comes to its key. -/
theorem Right.completes (hs : h.Serves f) (ha : ∀ q, ∃ a, h.answer q = .ok a) (hd : Right f d)
    {i : Nat} {n : Node} {progress : KeyProgress} (hi : d.underway[i]? = some (n, progress)) :
    ∃ d' key, ReflTransGen (Step h) d d' ∧ (n, key) ∈ d'.keys := by
  induction hl : progress.turnsLeft f n d.order using Nat.strongRecOn generalizing d progress with
  | ind left ih =>
    have hproper := KeyProgress.proper_turn hs hd.agrees (hd.onWay _ (List.mem_of_getElem? hi))
    -- A turn that goes on leaves a desk on which fewer turns are left.
    have goes : ∀ {order progress'}, progress.Nearer f n d.order order progress' →
        Step h d { d with order := order, underway := d.underway.set i (n, progress') } →
        ∃ d' key, ReflTransGen (Step h) d d' ∧ (n, key) ∈ d'.keys := by
      intro order progress' hn hstep
      have hi' : (d.underway.set i (n, progress'))[i]? = some (n, progress') := by
        rw [List.getElem?_set_self (List.getElem?_eq_some_iff.1 hi).choose]
      obtain ⟨d', key, hsteps, hkey⟩ := ih _ (hl ▸ hn.fewer) (hd.nearer hn) hi' rfl
      exact ⟨d', key, hsteps.head hstep, hkey⟩
    cases hturn : progress.turn d.order with
    | ask q next =>
      rw [hturn] at hproper
      obtain ⟨a, hanswer⟩ := ha q
      exact goes (hproper a hanswer) (.ask hi hturn hanswer)
    | go order progress' =>
      rw [hturn] at hproper
      exact goes hproper (.go hi hturn)
    | ready key order =>
      exact ⟨_, key, .single (.ready hi hturn), List.mem_append_right _ List.mem_cons_self⟩
    | fail e =>
      rw [hturn] at hproper
      exact hproper.elim

end Desk

/-! ## What keys say -/

/-- Dropping repeated elements leaves the order of first appearances. -/
theorem idxOf_eraseDups_lt {α : Type} [DecidableEq α] {l : List α} {a b : α} (ha : a ∈ l)
    (hb : b ∈ l) : l.eraseDups.idxOf a < l.eraseDups.idxOf b ↔ l.idxOf a < l.idxOf b := by
  induction l using List.reverseRecOn with
  | nil => cases ha
  | append_singleton l c ih =>
    have inside : ∀ {x}, x ∈ l → (l ++ [c]).idxOf x = l.idxOf x ∧
        (l ++ [c]).eraseDups.idxOf x = l.eraseDups.idxOf x := by
      intro x hx
      refine ⟨List.idxOf_append_of_mem hx, ?_⟩
      rw [eraseDups_concat]
      split
      · rfl
      · exact List.idxOf_append_of_mem (List.mem_eraseDups.2 hx)
    have outside : ∀ {x}, x ∈ l ++ [c] → x ∉ l → (l ++ [c]).idxOf x = l.length ∧
        (l ++ [c]).eraseDups.idxOf x = l.eraseDups.length := by
      intro x hx hnot
      obtain rfl : x = c := by simpa [hnot] using hx
      rw [eraseDups_concat, if_neg hnot, List.idxOf_append_of_notMem hnot,
        List.idxOf_append_of_notMem (mt List.mem_eraseDups.1 hnot)]
      simp
    have hlt : ∀ {x}, x ∈ l → l.idxOf x < l.length ∧ l.eraseDups.idxOf x < l.eraseDups.length :=
      fun hx => ⟨List.idxOf_lt_length_of_mem hx,
        List.idxOf_lt_length_of_mem (List.mem_eraseDups.2 hx)⟩
    by_cases hal : a ∈ l
    · rw [(inside hal).1, (inside hal).2]
      by_cases hbl : b ∈ l
      · rw [(inside hbl).1, (inside hbl).2]
        exact ih hal hbl
      · rw [(outside hb hbl).1, (outside hb hbl).2]
        exact iff_of_true (hlt hal).2 (hlt hal).1
    · rw [(outside ha hal).1, (outside ha hal).2]
      by_cases hbl : b ∈ l
      · rw [(inside hbl).1, (inside hbl).2]
        exact iff_of_false (Nat.lt_asymm (hlt hbl).2) (Nat.lt_asymm (hlt hbl).1)
      · rw [(outside hb hbl).1, (outside hb hbl).2]
        exact iff_of_false (Nat.lt_irrefl _) (Nat.lt_irrefl _)

namespace Forest

variable {f : Forest} {n m : Node}

/-- Of two nodes of one tree the one with the smaller key comes first on the walk. -/
theorem sublist_walk_iff (hr : f.root n = f.root m) :
    [n, m].Sublist (f.walk (f.root n)) ↔ f.key n < f.key m := by
  constructor
  · intro hs
    have hpair := (f.walk_sorted (f.root n)).sublist hs
    exact (List.pairwise_cons.1 hpair).1 m List.mem_cons_self
  · intro hlt
    have hm : m ∈ f.walk (f.root n) := hr ▸ f.mem_walk_root m
    obtain ⟨before, after, hwalk⟩ := List.append_of_mem (f.mem_walk_root n)
    have hsorted := f.walk_sorted (f.root n)
    rw [hwalk] at hm hsorted ⊢
    have hafter : m ∈ after := by
      rcases List.mem_append.1 hm with hm | hm
      · have hgt := (List.pairwise_append.1 hsorted).2.2 m hm n List.mem_cons_self
        exact absurd (List.lt_trans hlt hgt) (List.lt_irrefl _)
      · rcases List.mem_cons.1 hm with rfl | hm
        · exact absurd hlt (List.lt_irrefl _)
        · exact hm
    exact ((List.singleton_sublist.2 hafter).cons_cons n).trans (List.sublist_append_right ..)

/-- Positions are less than the number of what a node lists. -/
theorem lt_of_mem_key {bound : Nat} (hb : ∀ p, (f.listed p).length ≤ bound) {i : Nat}
    (hi : i ∈ f.key n) : i < bound := by
  induction n using parent_induction (f := f) with
  | top n hn =>
    rw [key_of_none hn] at hi
    cases hi
  | down n p hn ih =>
    rw [key_of_some hn] at hi
    rcases List.mem_append.1 hi with hi | hi
    · exact ih hi
    · rw [List.mem_singleton.1 hi]
      exact Nat.lt_of_lt_of_le (List.idxOf_lt_length_of_mem (mem_listed_iff.2 hn)) (hb p)

end Forest

namespace OrderKey

theorem comparePaths_eq_lt {a b : List Nat} : comparePaths a b = .lt ↔ a < b := by
  induction a generalizing b with
  | nil => cases b <;> simp [comparePaths]
  | cons i a ih =>
    cases b with
    | nil => simp [comparePaths]
    | cons j b =>
      rw [comparePaths, List.cons_lt_cons_iff]
      split
      · simp [*]
      · split
        · simp; omega
        · have : i = j := by omega
          simp [ih, this]

theorem compare_eq_lt {a b : OrderKey} : a.compare b = .lt ↔ a.rank < b.rank := by
  rw [rank_lt, compare]
  split
  · simp [*]
  · split
    · simp; omega
    · have : a.root = b.root := by omega
      simp [comparePaths_eq_lt, this]

theorem contains_iff {a b : OrderKey} : a.contains b ↔ a.root = b.root ∧ a.path <+: b.path := by
  rw [contains, Bool.and_eq_true, beq_iff_eq, List.isPrefixOf_iff_prefix]

end OrderKey

/-- Keys of two nodes are in the order of the nodes. `trees` are the roots of the trees of all nodes
that have keys, as these were completed. -/
structure OrderKey.Exact (f : Forest) (trees : List Node) (a b : Node) (ka kb : OrderKey) :
    Prop where
  eq_iff : ka = kb ↔ a = b
  /-- The walk of an element visits it, then its attributes, then its children. -/
  lt_iff : f.root a = f.root b → (ka.compare kb = .lt ↔ [a, b].Sublist (f.walk (f.root a)))
  /-- The first node is the second one, or lies on the chain of its parents. -/
  contains_iff : ka.contains kb ↔ a ∈ f.lineage b
  tree_lt_iff : f.root a ≠ f.root b →
    (ka.compare kb = .lt ↔ trees.idxOf (f.root a) < trees.idxOf (f.root b))
  not_contains : f.root a ≠ f.root b → ka.contains kb = false

namespace Node

variable {f : Forest} {n m : Node}

open Forest

theorem keyIn_contains {roots : Roots} (hn : f.root n ∈ roots) :
    (keyIn f roots n).contains (keyIn f roots m) ↔ m ∈ f.walk n := by
  rw [OrderKey.contains_iff, mem_walk]
  exact and_congr_left' (List.idxOf_inj hn)

/-- The numbers of trees are their places among first appearances. -/
theorem keyIn_exact {trees : List Node} (hn : f.root n ∈ trees) (hm : f.root m ∈ trees) :
    OrderKey.Exact f trees n m (keyIn f trees.eraseDups n) (keyIn f trees.eraseDups m) := by
  have hn' := List.mem_eraseDups.2 hn
  have hcontains : (keyIn f trees.eraseDups n).contains (keyIn f trees.eraseDups m) ↔
      n ∈ f.lineage m := by
    rw [keyIn_contains hn', mem_lineage]
  refine ⟨⟨keyIn_inj hn', fun hnm => by rw [hnm]⟩, fun hr => ?_, hcontains, fun hr => ?_,
    fun hr => ?_⟩
  · rw [OrderKey.compare_eq_lt, keyIn_rank_lt hn', sublist_walk_iff hr, Precedes, hr]
    simp
  · rw [OrderKey.compare_eq_lt, keyIn_rank_lt hn', ← idxOf_eraseDups_lt hn hm, Precedes]
    simp [hr]
  · apply Bool.eq_false_of_not_eq_true
    intro hc
    exact hr (mem_walk.1 (mem_lineage.1 (hcontains.1 hc))).1

end Node

namespace Desk

variable {h : Host} {f : Forest} {d : Desk}

/-- Keys are exactly document order. This holds of all keys that computations on one order have come
to, over a host that serves a forest. No position in a key reaches a bound that the lists of siblings
stay within. No computation fails unless the host does, and each one can be completed if the host
answers. -/
theorem keys_exact (hs : h.Serves f) (hd : Reached h d) :
    (∀ x ∈ d.keys, ∀ y ∈ d.keys,
      OrderKey.Exact f (d.keys.map fun x => f.root x.1) x.1 y.1 x.2 y.2) ∧
    (∀ bound, (∀ p, (f.listed p).length ≤ bound) → ∀ x ∈ d.keys, ∀ i ∈ x.2.path, i < bound) ∧
    ∀ (i : Nat) (n : Node) (progress : KeyProgress), d.underway[i]? = some (n, progress) →
      (∀ e, progress.turn d.order ≠ .fail e) ∧
      ((∀ q, ∃ a, h.answer q = .ok a) →
        ∃ d' key, ReflTransGen (Step h) d d' ∧ (n, key) ∈ d'.keys) := by
  have hright := hd.right hs
  refine ⟨fun x hx y hy => ?_, fun bound hbound x hx i hi => ?_, fun i n progress hi =>
    ⟨fun e he => ?_, fun hanswers => ?_⟩⟩
  · have htrees : d.order.roots = (d.keys.map fun x => f.root x.1).eraseDups := by
      rw [hright.roots, Forest.roots, List.map_map]
      rfl
    rw [hright.keys x hx, hright.keys y hy, htrees]
    exact Node.keyIn_exact (List.mem_map_of_mem hx) (List.mem_map_of_mem hy)
  · rw [hright.keys x hx] at hi
    exact Forest.lt_of_mem_key hbound hi
  · have hproper := KeyProgress.proper_turn hs hright.agrees
      (hright.onWay _ (List.mem_of_getElem? hi))
    rw [he] at hproper
    exact hproper
  · exact hright.completes hs hanswers hi

/-- The key of a text is half way when that of its parent is asked for and completed. -/
theorem keys_exact_interleaved :
    let forest : Forest := [.element ⟨none, "r", none⟩ [] [.text "x"]]
    let root : Node := ⟨0, [], .element, some ⟨none, "r", none⟩, 1⟩
    let text : Node := ⟨0, [.child 0], .text, none, 0⟩
    ∃ d, Reached (.ofForest forest) d ∧ d.keys = [(root, ⟨0, []⟩), (text, ⟨0, [0]⟩)] ∧
      OrderKey.Exact forest [forest.root root, forest.root text] root text ⟨0, []⟩ ⟨0, [0]⟩ := by
  intro forest root text
  have begun : ReflTransGen (Step (.ofForest forest)) empty _ :=
    (ReflTransGen.single (.start text)).tail (.ask (i := 0) rfl rfl rfl)
  have crossed := (((begun.tail (.start root)).tail (.ask (i := 1) rfl rfl rfl)).tail
    (.ready (i := 1) rfl rfl)).tail (.ask (i := 0) rfl rfl rfl)
  have hd := (((crossed.tail (.ask (i := 0) rfl rfl rfl)).tail (.ask (i := 0) rfl rfl rfl)).tail
    (.go (i := 0) rfl rfl)).tail (.ready (i := 0) rfl rfl)
  exact ⟨_, hd, rfl, (keys_exact (Host.ofForest_serves forest) hd).1 _ List.mem_cons_self _
    (List.mem_cons_of_mem _ List.mem_cons_self)⟩

end Desk

end XPath
