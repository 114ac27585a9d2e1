import Mathlib.Data.List.Lex
import Mathlib.Data.Prod.Lex
import XPath.Proofs.Nodes.DocumentOrder
import XPath.Proofs.Nodes.Serving

/-!
# Order keys

Over a host that serves a forest the key of a node holds the number of its tree and the positions on
the way down to it (`Node.keyIn`). Every turn of a computation keeps to that way (`OnWay`), whatever
lists it finds in the order that it shares with others, as long as these are the lists of the forest
(`DocumentOrder.Agrees`). It needs at most `KeyProgress.turnsLeft` turns more, and comparing what
computations come to is comparing nodes by tree and way.
-/

namespace XPath

namespace Node

variable {f : Forest} {n p : Node}

open Forest

theorem idxOf?_of_mem {l : List Node} (h : n ∈ l) : l.idxOf? n = some (l.idxOf n) := by
  rcases hi : l.idxOf? n with _ | i
  · exact absurd h (List.idxOf?_eq_none_iff.1 hi)
  · rw [List.idxOf_eq_getD_idxOf?, hi, Option.getD_some]

theorem attributes_of_kind (h : n.kind ≠ .element) : f.attributes n = [] := by
  rw [attributes]
  rcases ht : f.subtree? n with _ | t
  · rfl
  · have hn := (subtree?_eq_some.1 ht).2
    cases t with
    | element => exact absurd (hn ▸ rfl) h
    | _ => rfl

/-- The roots after that of one more node. -/
def withRoot (f : Forest) (roots : Roots) (n : Node) : Roots :=
  if f.root n ∈ roots then roots else roots ++ [f.root n]

/-- The key of a node when trees are numbered by a list of roots. -/
def keyIn (f : Forest) (roots : Roots) (n : Node) : OrderKey := ⟨roots.idxOf (f.root n), f.key n⟩

theorem mem_withRoot (f : Forest) (roots : Roots) (n : Node) : f.root n ∈ withRoot f roots n := by
  rw [withRoot]
  split <;> simp_all

theorem withRoot_foldl (f : Forest) (roots : Roots) (ns : List Node) :
    ∃ more, ns.foldl (withRoot f) roots = roots ++ more := by
  induction ns generalizing roots with
  | nil => exact ⟨[], (List.append_nil _).symm⟩
  | cons n ns ih =>
    obtain ⟨more, hm⟩ := ih (withRoot f roots n)
    rw [List.foldl_cons, hm, withRoot]
    split
    · exact ⟨more, rfl⟩
    · exact ⟨[f.root n] ++ more, List.append_assoc ..⟩

theorem withRoot_foldl_nil (f : Forest) (ns : List Node) :
    ns.foldl (withRoot f) [] = f.roots ns := by
  induction ns using List.reverseRecOn with
  | nil => rfl
  | append_singleton ns n ih =>
    rw [List.foldl_append, ih, List.foldl_cons, List.foldl_nil, withRoot, roots, roots,
      List.map_append, List.map_singleton, eraseDups_concat]
    simp only [List.mem_eraseDups]

theorem keyIn_withRoot {roots : Roots} (hp : f.root p ∈ roots) (n : Node) :
    keyIn f (withRoot f roots n) p = keyIn f roots p := by
  obtain ⟨more, hm⟩ := withRoot_foldl f roots [n]
  rw [List.foldl_cons, List.foldl_nil] at hm
  rw [keyIn, keyIn, hm, List.idxOf_append_of_mem hp]

end Node

/-! ## The order of keys -/

namespace OrderKey

/-- The key as an element of a linear order. -/
def rank (k : OrderKey) : Nat ×ₗ List Nat := toLex (k.root, k.path)

theorem rank_lt {a b : OrderKey} :
    a.rank < b.rank ↔ a.root < b.root ∨ a.root = b.root ∧ a.path < b.path := Prod.Lex.lt_iff

theorem rank_inj {a b : OrderKey} : a.rank = b.rank ↔ a = b := by
  cases a
  cases b
  simp [rank]

theorem comparePaths_eq_gt {a b : List Nat} : comparePaths a b = .gt ↔ b < a := by
  induction a generalizing b with
  | nil => cases b <;> simp [comparePaths]
  | cons i a ih =>
    cases b with
    | nil => simp [comparePaths]
    | cons j b =>
      rw [comparePaths, List.cons_lt_cons_iff]
      split
      · simp; omega
      · split
        · simp [*]
        · have : i = j := by omega
          simp [ih, this]

theorem compare_ne_gt {a b : OrderKey} : (a.compare b != .gt) = true ↔ a.rank ≤ b.rank := by
  rw [← not_lt, rank_lt, compare]
  split
  · simp; omega
  · split
    · simp [*]
    · have : a.root = b.root := by omega
      simp [comparePaths_eq_gt, this]

end OrderKey

namespace Node

variable {f : Forest} {n p : Node}

open Forest

theorem keyIn_rank_lt {roots : Roots} (hn : f.root n ∈ roots) :
    (keyIn f roots n).rank < (keyIn f roots p).rank ↔ f.Precedes roots.idxOf n p := by
  rw [OrderKey.rank_lt, Precedes, keyIn, keyIn]
  simp only [List.idxOf_inj hn]

theorem keyIn_inj {roots : Roots} (hn : f.root n ∈ roots) (hk : keyIn f roots n = keyIn f roots p) :
    n = p := by
  simp only [keyIn, OrderKey.mk.injEq, List.idxOf_inj hn] at hk
  exact ext_key hk.1 hk.2

end Node

/-! ## The shared lists -/

namespace DocumentOrder

variable {f : Forest} {order : DocumentOrder} {n p q : Node}

/-- The lists noted are those of the forest. -/
structure Agrees (f : Forest) (order : DocumentOrder) : Prop where
  attributes : ∀ p l, (order.below p).attributes = some l → l = f.attributes p
  children : ∀ p l, (order.below p).children = some l → l = f.children p

theorem agrees_start (f : Forest) (roots : Roots) : (start roots).Agrees f where
  attributes _ _ := nofun
  children _ _ := nofun

theorem below_note (found : Siblings) :
    (order.note p found).below q = if q = p then found else order.below q := by
  rw [below, note, List.lookup_cons]
  by_cases hq : q = p
  · simp [hq]
  · rw [if_neg hq, beq_eq_false_iff_ne.2 hq, below]

@[simp] theorem roots_note (found : Siblings) : (order.note p found).roots = order.roots := rfl

theorem Agrees.note {found : Siblings} (ho : order.Agrees f)
    (ha : ∀ l, found.attributes = some l → l = f.attributes p)
    (hc : ∀ l, found.children = some l → l = f.children p) : (order.note p found).Agrees f := by
  constructor <;> intro q l hl <;> rw [below_note] at hl <;> split at hl
  · next hq => exact hq ▸ ha l hl
  · exact ho.attributes q l hl
  · next hq => exact hq ▸ hc l hl
  · exact ho.children q l hl

theorem number_eq (f : Forest) (order : DocumentOrder) (n : Node) :
    order.number (f.root n) = ((Node.withRoot f order.roots n).idxOf (f.root n),
      { order with roots := Node.withRoot f order.roots n }) := by
  rw [number, Node.withRoot]
  by_cases hr : f.root n ∈ order.roots
  · simp only [Node.idxOf?_of_mem hr, if_pos hr]
  · simp only [List.idxOf?_eq_none_iff.2 hr, if_neg hr, List.idxOf_append_of_notMem hr,
      List.idxOf_cons_self, Nat.add_zero]

/-- How many of the two lists below a parent are noted. -/
def noted (order : DocumentOrder) (p : Node) : Nat :=
  (order.below p).attributes.isSome.toNat + (order.below p).children.isSome.toNat

theorem noted_le (order : DocumentOrder) (p : Node) : order.noted p ≤ 2 := by
  have hle : ∀ b : Bool, b.toNat ≤ 1 := Bool.toNat_le
  rw [noted]
  have := hle (order.below p).attributes.isSome
  have := hle (order.below p).children.isSome
  omega

end DocumentOrder

/-! ## Turns -/

/-- The computation is on its way to the key of a node: it climbs along the nodes above it, or comes
down with the key of the node that it has reached. -/
inductive OnWay (f : Forest) (n : Node) : KeyProgress → Prop
  | climbing {above top below} : f.lineage n = above ++ top :: below →
      OnWay f n ⟨top :: below, true, []⟩
  | descending {above top below} : f.lineage n = above ++ top :: below →
      OnWay f n ⟨above ++ top :: below, false, f.key top⟩

namespace KeyProgress

variable {f : Forest} {h : Host} {order order' : DocumentOrder} {progress progress' : KeyProgress}
  {n : Node}

/-- A bound for the turns that are left of the computation of the key of a node. Below each node on
the way down two lists may have to be asked for before the next position is found. -/
def turnsLeft (f : Forest) (n : Node) (order : DocumentOrder) (progress : KeyProgress) : Nat :=
  let length := (f.lineage n).length
  if progress.climbing then (length - progress.chain.length) + 3 * (length - 1) + 2
  else
    match progress.chain.drop progress.path.length with
    | [] => 1
    | top :: below => 3 * below.length - order.noted top + 1

/-- A turn that has not come to the end has brought the computation nearer to it. -/
structure Nearer (f : Forest) (n : Node) (order : DocumentOrder) (progress : KeyProgress)
    (order' : DocumentOrder) (progress' : KeyProgress) : Prop where
  agrees : order'.Agrees f
  onWay : OnWay f n progress'
  roots : order'.roots = order.roots
  fewer : progress'.turnsLeft f n order' < progress.turnsLeft f n order

/-- What a turn on the way to the key of a node can come to. -/
def Proper (h : Host) (f : Forest) (n : Node) (order : DocumentOrder) (progress : KeyProgress) :
    KeyTurn → Prop
  | .ask q next => ∀ a, h.answer q = .ok a →
      Nearer f n order progress (next a).1 (next a).2
  | .go order' progress' => Nearer f n order progress order' progress'
  | .ready key order' => key = Node.keyIn f order'.roots n ∧
      order'.roots = Node.withRoot f order.roots n ∧ order'.Agrees f
  | .fail _ => False

theorem onWay_start (f : Forest) (n : Node) : OnWay f n (start n) := by
  obtain ⟨above, hn⟩ := f.lineage_eq_concat n
  exact .climbing hn

theorem turnsLeft_start (f : Forest) (n : Node) (order : DocumentOrder) :
    (start n).turnsLeft f n order ≤ 4 * n.path.length + 2 := by
  have hle := f.length_lineage_le n
  simp only [turnsLeft, start, if_true, List.length_singleton]
  omega

theorem length_key_of_lineage {above below : List Node} {m : Node}
    (hl : f.lineage n = above ++ m :: below) : (f.key m).length = above.length := by
  have hlength := f.length_lineage m
  rw [Forest.lineage_split hl, List.length_append, List.length_singleton] at hlength
  omega

theorem drop_key {above below : List Node} {m : Node} (hl : f.lineage n = above ++ m :: below) :
    (above ++ m :: below).drop (f.key m).length = m :: below := by
  rw [length_key_of_lineage hl, List.drop_left]

/-- Coming down, the bound depends on the nodes below the one that has been reached. -/
theorem turnsLeft_descending {above below : List Node} {m : Node}
    (hl : f.lineage n = above ++ m :: below) (order : DocumentOrder) :
    turnsLeft f n order ⟨above ++ m :: below, false, f.key m⟩ =
      3 * below.length - order.noted m + 1 := by
  simp only [turnsLeft, drop_key hl, Bool.false_eq_true, if_false]

/-- Climbing goes on to the parent, or turns around at the root. -/
theorem nearer_climb {above below : List Node} {top : Node}
    (hl : f.lineage n = above ++ top :: below) (ho : order.Agrees f) :
    Nearer f n order ⟨top :: below, true, []⟩ order
      (KeyProgress.climb ⟨top :: below, true, []⟩ (f.parent? top)) := by
  have htop := Forest.lineage_split hl
  have hlength := congrArg List.length hl
  rw [List.length_append, List.length_cons] at hlength
  rcases hp : f.parent? top with _ | p
  · -- There is nothing above the root, and its key is empty.
    rw [Forest.lineage_of_none hp, List.singleton_eq_append_iff] at htop
    obtain ⟨rfl, -⟩ : above = [] ∧ [top] = [top] := by simpa using htop
    have hdesc : turnsLeft f n order ⟨top :: below, false, []⟩ = 3 * below.length -
        order.noted top + 1 := by
      simp only [turnsLeft, List.length_nil, List.drop_zero, Bool.false_eq_true, if_false]
    refine ⟨ho, ?_, rfl, ?_⟩
    · have hon := OnWay.descending hl
      rw [Forest.key_of_none hp, List.nil_append] at hon
      exact hon
    · rw [climb, hdesc, turnsLeft, hlength]
      simp only [if_true, List.length_cons, List.length_nil]
      omega
  · obtain ⟨above', hp'⟩ := f.lineage_eq_concat p
    rw [Forest.lineage_of_some hp, hp'] at htop
    obtain rfl := (List.append_inj' htop rfl).1
    rw [List.append_assoc, List.singleton_append] at hl
    refine ⟨ho, .climbing hl, rfl, ?_⟩
    simp only [climb, turnsLeft, if_true, List.length_cons, List.length_append] at hlength ⊢
    rw [List.length_nil] at hlength
    omega

/-- Coming down by one position. -/
theorem nearer_descend {above below : List Node} {p m : Node}
    (hl : f.lineage n = above ++ p :: m :: below) (ho : order.Agrees f) :
    Nearer f n order ⟨above ++ p :: m :: below, false, f.key p⟩ order
      (descend ⟨above ++ p :: m :: below, false, f.key p⟩ ((f.listed p).idxOf m)) := by
  have hm := Forest.parent_of_lineage hl
  have hsplit : above ++ p :: m :: below = above ++ [p] ++ m :: below := by
    rw [List.append_assoc, List.singleton_append]
  have hdown : descend ⟨above ++ p :: m :: below, false, f.key p⟩ ((f.listed p).idxOf m) =
      ⟨above ++ [p] ++ m :: below, false, f.key m⟩ := by
    rw [descend, Forest.key_of_some hm, hsplit]
  have hl' := hl.trans hsplit
  have hle := order.noted_le p
  rw [hdown]
  refine ⟨ho, .descending hl', rfl, ?_⟩
  rw [turnsLeft_descending hl', turnsLeft_descending hl, List.length_cons]
  omega

/-- One more list below the parent is noted. -/
theorem nearer_note {above below : List Node} {p m : Node} {found : Siblings}
    (hl : f.lineage n = above ++ p :: m :: below) (ho : order.Agrees f)
    (ha : ∀ l, found.attributes = some l → l = f.attributes p)
    (hc : ∀ l, found.children = some l → l = f.children p)
    (hmore : order.noted p < found.attributes.isSome.toNat + found.children.isSome.toNat) :
    Nearer f n order ⟨above ++ p :: m :: below, false, f.key p⟩ (order.note p found)
      ⟨above ++ p :: m :: below, false, f.key p⟩ := by
  have hle := (order.note p found).noted_le p
  have hnoted : (order.note p found).noted p =
      found.attributes.isSome.toNat + found.children.isSome.toNat := by
    rw [DocumentOrder.noted, DocumentOrder.below_note, if_pos rfl]
  refine ⟨ho.note ha hc, .descending hl, rfl, ?_⟩
  rw [turnsLeft_descending hl, turnsLeft_descending hl, List.length_cons]
  omega

theorem nearer_attributes {above below : List Node} {p m : Node}
    (hl : f.lineage n = above ++ p :: m :: below) (ho : order.Agrees f)
    (ha : (order.below p).attributes = none) :
    Nearer f n order ⟨above ++ p :: m :: below, false, f.key p⟩
      (order.note p { order.below p with attributes := some (f.attributes p) })
      ⟨above ++ p :: m :: below, false, f.key p⟩ := by
  apply nearer_note hl ho
  · rintro l ⟨⟩
    rfl
  · exact ho.children p
  · rw [DocumentOrder.noted, ha]
    simp

theorem nearer_children {above below : List Node} {p m : Node}
    (hl : f.lineage n = above ++ p :: m :: below) (ho : order.Agrees f)
    (hc : (order.below p).children = none) :
    Nearer f n order ⟨above ++ p :: m :: below, false, f.key p⟩
      (order.note p { order.below p with children := some (f.children p) })
      ⟨above ++ p :: m :: below, false, f.key p⟩ := by
  apply nearer_note hl ho
  · exact ho.attributes p
  · rintro l ⟨⟩
    rfl
  · rw [DocumentOrder.noted, hc]
    simp

/-- Finding the position of a child asks for what the parent lists, as far as it is not noted. -/
theorem proper_place (hs : h.Serves f) {above below : List Node} {p m : Node}
    (hl : f.lineage n = above ++ p :: m :: below) (ho : order.Agrees f) :
    Proper h f n order ⟨above ++ p :: m :: below, false, f.key p⟩
      (place order ⟨above ++ p :: m :: below, false, f.key p⟩ p m) := by
  have hm : m ∈ f.listed p := Forest.mem_listed_iff.2 (Forest.parent_of_lineage hl)
  have hdescend := nearer_descend hl ho
  have hchildren := nearer_children hl ho
  rw [place]
  rcases ha : (order.below p).attributes with _ | attributes
  · have hattributes := nearer_attributes hl ho ha
    dsimp only
    split
    · intro attributes hanswer
      cases hs _ _ hanswer
      exact hattributes
    · next hk =>
      rw [Node.attributes_of_kind hk] at hattributes
      exact hattributes
  · obtain rfl := ho.attributes p attributes ha
    dsimp only
    by_cases hin : m ∈ f.attributes p
    · rw [Forest.listed, List.idxOf_append_of_mem hin] at hdescend
      rw [Node.idxOf?_of_mem hin]
      exact hdescend
    · have hin' : m ∈ f.children p := (List.mem_append.1 hm).resolve_left hin
      rw [Forest.listed, List.idxOf_append_of_notMem hin] at hdescend
      rw [List.idxOf?_eq_none_iff.2 hin]
      rcases hc : (order.below p).children with _ | children
      · intro children hanswer
        cases hs _ _ hanswer
        rw [← ha]
        exact hchildren hc
      · obtain rfl := ho.children p children hc
        dsimp only
        rw [Node.idxOf?_of_mem hin']
        exact hdescend

/-- Every turn on the way to the key of a node goes on towards it, or comes to it. -/
theorem proper_turn (hs : h.Serves f) (ho : order.Agrees f) (hp : OnWay f n progress) :
    Proper h f n order progress (progress.turn order) := by
  cases hp with
  | @climbing above top below hl =>
    intro parent hanswer
    cases hs _ _ hanswer
    exact nearer_climb hl ho
  | @descending above top below hl =>
    rw [turn, drop_key hl]
    simp only [Bool.false_eq_true, if_false]
    cases below with
    | cons m below => exact proper_place hs hl ho
    | nil =>
      -- The node itself has been reached.
      obtain ⟨above', hn⟩ := f.lineage_eq_concat n
      have htop : top = n := List.singleton_inj.1 (List.append_inj' (hl.symm.trans hn) rfl).2
      subst htop
      have hroot : (above ++ [top]).headD top = f.root top := by
        rw [← hl, Forest.headD_lineage]
      rw [hroot, DocumentOrder.number_eq]
      exact ⟨rfl, rfl, ho.attributes, ho.children⟩

/-- With all answers at hand a computation comes to the key in time. -/
theorem finish_run {turns : Nat} (m : Node) (ho : order.Agrees f) (hp : OnWay f n progress)
    (ht : progress.turnsLeft f n order ≤ turns) :
    ∃ order', (progress.finish m turns order).run (.ofForest f) =
        .ok (Node.keyIn f order'.roots n, order') ∧
      order'.roots = Node.withRoot f order.roots n ∧ order'.Agrees f := by
  induction turns generalizing order progress with
  | zero =>
    have hpos : 0 < progress.turnsLeft f n order := by
      rw [turnsLeft]
      split
      · omega
      · split <;> omega
    omega
  | succ turns ih =>
    have hturn := proper_turn (Host.ofForest_serves f) ho hp
    rw [finish]
    cases hk : progress.turn order with
    | ask q next =>
      rw [hk] at hturn
      obtain ⟨a, ha⟩ : ∃ a, (Host.ofForest f).answer q = .ok a := by cases q <;> exact ⟨_, rfl⟩
      obtain ⟨hagrees, hon, hroots, hfewer⟩ := hturn a ha
      obtain ⟨order', hrun, hroots', ho'⟩ := ih hagrees hon (by omega)
      refine ⟨order', ?_, hroots ▸ hroots', ho'⟩
      rw [Task.run, ha]
      exact hrun
    | go order₁ progress₁ =>
      rw [hk] at hturn
      obtain ⟨hagrees, hon, hroots, hfewer⟩ := hturn
      obtain ⟨order', hrun, hroots', ho'⟩ := ih hagrees hon (by omega)
      exact ⟨order', hrun, hroots ▸ hroots', ho'⟩
    | ready key order₁ =>
      rw [hk] at hturn
      obtain ⟨rfl, hroots, ho'⟩ := hturn
      exact ⟨order₁, rfl, hroots, ho'⟩
    | fail e =>
      rw [hk] at hturn
      exact hturn.elim

end KeyProgress

namespace Node

variable {f : Forest}

theorem orderKey_run {order : DocumentOrder} (ho : order.Agrees f) (n : Node) :
    ∃ order', (orderKey order n).run (.ofForest f) = .ok (keyIn f order'.roots n, order') ∧
      order'.roots = withRoot f order.roots n ∧ order'.Agrees f :=
  KeyProgress.finish_run n ho (KeyProgress.onWay_start f n) (KeyProgress.turnsLeft_start f n order)

theorem keysFrom_run {order : DocumentOrder} (ho : order.Agrees f) (ns : List Node) :
    (keysFrom order ns).run (.ofForest f) =
      .ok (ns.map fun n => (keyIn f (ns.foldl (withRoot f) order.roots) n, n)) := by
  induction ns generalizing order with
  | nil => rfl
  | cons n ns ih =>
    obtain ⟨order', hrun, hroots, ho'⟩ := orderKey_run ho n
    rw [keysFrom, Task.run_bind_ok hrun, Task.run_bind_ok (ih ho'), List.map_cons, List.foldl_cons,
      ← hroots]
    obtain ⟨more, hm⟩ := withRoot_foldl f order'.roots ns
    have hkey : keyIn f (ns.foldl (withRoot f) order'.roots) n = keyIn f order'.roots n := by
      rw [keyIn, keyIn, hm, List.idxOf_append_of_mem (hroots ▸ mem_withRoot f order.roots n)]
    rw [hkey]
    rfl

theorem orderKeys_run (f : Forest) (roots : Roots) (ns : List Node) :
    (orderKeys roots ns).run (.ofForest f) =
      .ok (ns.map fun n => (keyIn f (ns.foldl (withRoot f) roots) n, n)) :=
  keysFrom_run (DocumentOrder.agrees_start f roots) ns

end Node

end XPath
