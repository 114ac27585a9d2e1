import Mathlib.Data.List.Nodup
import XPath.Tree

/-!
# Subtrees

A node lists its attributes and then its children. Every node of a tree has a root and a key, the
positions on the way down from the root; together they determine the node (`Forest.ext_key`). The
walk of a node visits it, then its attributes, then its children with all that lies below them:
these are the nodes whose key begins with that of the node (`Forest.mem_walk`), and the walk goes
through them in the lexicographic order of their keys (`Forest.walk_sorted`).
-/

namespace XPath

/-- Distinct elements stand in the order of their positions. -/
theorem pairwise_idxOf {α : Type} [DecidableEq α] {l : List α} (hl : l.Nodup) :
    l.Pairwise fun a b => l.idxOf a < l.idxOf b := by
  rw [List.pairwise_iff_getElem]
  intro i j hi hj hij
  rwa [hl.idxOf_getElem i hi, hl.idxOf_getElem j hj]

namespace Forest

variable {f : Forest} {n m p : Node}

/-- The attributes and the children of a node. -/
def listed (f : Forest) (n : Node) : List Node := f.attributes n ++ f.children n

theorem mem_listed : m ∈ f.listed n ↔ ∃ t step u, f.subtree? n = some t ∧
    stepInto t step = some u ∧ m = nodeOf n.tree (step :: n.path) u := by
  rw [listed, attributes, children]
  rcases ht : f.subtree? n with _ | t
  · simp
  simp only [List.mem_append, List.mem_map, List.mem_zipIdx_iff_getElem?]
  constructor
  · rintro (⟨⟨x, i⟩, hx, rfl⟩ | ⟨⟨u, i⟩, hu, rfl⟩)
    · exact ⟨t, .attribute i, _, rfl, by simp [stepInto, hx], rfl⟩
    · exact ⟨t, .child i, u, rfl, hu, rfl⟩
  · rintro ⟨t, step, u, ⟨⟩, hu, rfl⟩
    rcases step with i | i
    · exact .inr ⟨(u, i), hu, rfl⟩
    · obtain ⟨x, hx, rfl⟩ := Option.map_eq_some_iff.1 hu
      exact .inl ⟨(x, i), hx, rfl⟩

/-- What a node lists are the nodes that have it as their parent. -/
theorem mem_listed_iff : m ∈ f.listed n ↔ f.parent? m = some n := by
  rw [mem_listed]
  constructor
  · rintro ⟨t, step, u, ht, hu, rfl⟩
    obtain ⟨hat, hn⟩ := subtree?_eq_some.1 ht
    have hs : f.subtree? (nodeOf n.tree (step :: n.path) u) = some u :=
      subtree?_eq_some.2 ⟨by simp [nodeOf, at?, hat, hu], rfl⟩
    simp only [parent?, hs]
    simp [nodeOf, node?, hat]
    exact hn
  · intro hp
    rw [parent?] at hp
    split at hp
    case h_2 => cases hp
    case h_1 u step up hu hpath =>
      obtain ⟨t, hat, rfl⟩ := Option.map_eq_some_iff.1 hp
      obtain ⟨hat', hm⟩ := subtree?_eq_some.1 hu
      rw [hpath, at?, hat] at hat'
      exact ⟨t, step, u, subtree?_eq_some.2 ⟨hat, rfl⟩, hat', by rw [← hm, hpath]; rfl⟩

theorem listed_nodup (f : Forest) (n : Node) : (f.listed n).Nodup := by
  apply List.Nodup.of_map (f := Node.path)
  rw [listed, attributes, children]
  rcases f.subtree? n with _ | t
  · simp
  have numbered : ∀ {α : Type} (l : List α) (step : Nat → Descent), Function.Injective step →
      (l.zipIdx.map fun x => step x.2 :: n.path).Nodup := by
    intro α l step hstep
    have distinct : l.zipIdx.Pairwise fun x y => x.2 ≠ y.2 := by
      rw [← List.pairwise_map (f := Prod.snd) (R := (· ≠ ·)), List.zipIdx_map_snd]
      exact List.nodup_range'
    exact List.pairwise_map.2 (distinct.imp fun hxy h => hxy (hstep (List.cons.inj h).1))
  rw [List.map_append, List.nodup_append]
  refine ⟨?_, ?_, ?_⟩
  · simpa [nodeOf, Function.comp_def] using numbered t.attributes .attribute fun _ _ => by simp
  · simpa [nodeOf, Function.comp_def] using numbered t.children .child fun _ _ => by simp
  · intro a ha b hb
    simp only [List.mem_map] at ha hb
    obtain ⟨_, ⟨x, -, rfl⟩, rfl⟩ := ha
    obtain ⟨_, ⟨y, -, rfl⟩, rfl⟩ := hb
    simp [nodeOf]

/-! ## Going up -/

theorem parent?_path (hp : f.parent? n = some p) : ∃ step, n.path = step :: p.path := by
  obtain ⟨t, step, u, ht, hu, rfl⟩ := mem_listed.1 (mem_listed_iff.2 hp)
  exact ⟨step, rfl⟩

theorem parent?_length (hp : f.parent? n = some p) : p.path.length < n.path.length := by
  obtain ⟨step, hn⟩ := parent?_path hp
  simp [hn]

/-- What holds of nodes without a parent and is handed down to what a node lists holds of every
node. -/
theorem parent_induction {P : Node → Prop} (top : ∀ n, f.parent? n = none → P n)
    (down : ∀ n p, f.parent? n = some p → P p → P n) (n : Node) : P n := by
  induction hl : n.path.length using Nat.strongRecOn generalizing n with
  | ind l ih =>
    rcases hp : f.parent? n with _ | p
    · exact top n hp
    · exact down n p hp (ih _ (hl ▸ parent?_length hp) p rfl)

/-- The node without a parent above a node. -/
def root (f : Forest) (n : Node) : Node :=
  match _hp : f.parent? n with
  | some p => root f p
  | none => n
termination_by n.path.length
decreasing_by exact parent?_length _hp

/-- The positions on the way down to a node, each among what the node above lists. -/
def key (f : Forest) (n : Node) : List Nat :=
  match _hp : f.parent? n with
  | some p => key f p ++ [(f.listed p).idxOf n]
  | none => []
termination_by n.path.length
decreasing_by exact parent?_length _hp

theorem root_of_none (hp : f.parent? n = none) : f.root n = n := by
  rw [root]
  split <;> simp_all

theorem root_of_some (hp : f.parent? n = some p) : f.root n = f.root p := by
  rw [root]
  split <;> simp_all

theorem key_of_none (hp : f.parent? n = none) : f.key n = [] := by
  rw [key]
  split <;> simp_all

theorem key_of_some (hp : f.parent? n = some p) :
    f.key n = f.key p ++ [(f.listed p).idxOf n] := by
  rw [key]
  split <;> simp_all

/-- A node is determined by its root and its key. -/
theorem ext_key (hr : f.root n = f.root m) (hk : f.key n = f.key m) : n = m := by
  induction n using parent_induction (f := f) generalizing m with
  | top n hn =>
    rw [key_of_none hn] at hk
    rcases hm : f.parent? m with _ | p
    · rwa [root_of_none hn, root_of_none hm] at hr
    · simp [key_of_some hm] at hk
  | down n p hn ih =>
    rw [key_of_some hn] at hk
    rcases hm : f.parent? m with _ | q
    · simp [key_of_none hm] at hk
    · rw [key_of_some hm, List.append_singleton_inj] at hk
      rw [root_of_some hn, root_of_some hm] at hr
      obtain rfl := ih hr hk.1
      exact (List.idxOf_inj (mem_listed_iff.2 hn)).1 hk.2

/-! ## Going down -/

theorem stepInto_height {t u : Tree} {step : Descent} (h : stepInto t step = some u) :
    u.height < t.height := by
  cases step with
  | child i => exact Tree.height_lt_of_mem_children (List.mem_of_getElem? h)
  | _ =>
    obtain ⟨x, hx, rfl⟩ := Option.map_eq_some_iff.1 h
    cases t <;> simp_all [Tree.attributes, Tree.height]

theorem listed_height (hm : m ∈ f.listed n) : m.height < n.height := by
  obtain ⟨t, step, u, ht, hu, rfl⟩ := mem_listed.1 hm
  rw [height_eq ht]
  exact stepInto_height hu

/-- What is handed up from all that a node lists holds of every node. -/
theorem listed_induction {P : Node → Prop} (up : ∀ n, (∀ m ∈ f.listed n, P m) → P n) (n : Node) :
    P n := by
  induction hl : n.height using Nat.strongRecOn generalizing n with
  | ind l ih => exact up n fun m hm => ih _ (hl ▸ listed_height hm) m rfl

/-- A node, its attributes, and its children with all that lies below them. -/
def walk (f : Forest) (n : Node) : List Node :=
  n :: (f.listed n).attach.flatMap fun m => walk f m.1
termination_by n.height
decreasing_by exact listed_height m.2

theorem walk_eq (f : Forest) (n : Node) : f.walk n = n :: (f.listed n).flatMap f.walk := by
  rw [walk]
  simp [List.flatMap]

theorem mem_walk_self (f : Forest) (n : Node) : n ∈ f.walk n := by
  rw [walk_eq]
  exact List.mem_cons_self

theorem mem_walk_of_listed (hp : p ∈ f.walk n) (hm : m ∈ f.listed p) : m ∈ f.walk n := by
  induction n using listed_induction (f := f) with
  | up n ih =>
    rw [walk_eq, List.mem_cons, List.mem_flatMap] at hp ⊢
    right
    rcases hp with rfl | ⟨c, hc, hp⟩
    · exact ⟨m, hm, mem_walk_self f m⟩
    · exact ⟨c, hc, ih c hc hp⟩

/-- The nodes on the walk of a node are those whose key begins with its own. -/
theorem mem_walk : m ∈ f.walk n ↔ f.root n = f.root m ∧ f.key n <+: f.key m := by
  constructor
  · intro hm
    induction n using listed_induction (f := f) with
    | up n ih =>
      rw [walk_eq, List.mem_cons, List.mem_flatMap] at hm
      rcases hm with rfl | ⟨c, hc, hm⟩
      · exact ⟨rfl, List.prefix_refl _⟩
      · obtain ⟨hr, hk⟩ := ih c hc hm
        have hc := mem_listed_iff.1 hc
        rw [root_of_some hc] at hr
        rw [key_of_some hc] at hk
        exact ⟨hr, (List.prefix_append _ _).trans hk⟩
  · rintro ⟨hr, hk⟩
    induction m using parent_induction (f := f) with
    | top m hm =>
      rw [key_of_none hm, List.prefix_nil] at hk
      rw [ext_key hr (hk.trans (key_of_none hm).symm)]
      exact mem_walk_self f m
    | down m p hm ih =>
      rw [root_of_some hm] at hr
      rw [key_of_some hm, List.prefix_concat_iff] at hk
      rcases hk with hk | hk
      · rw [ext_key (hr.trans (root_of_some hm).symm) (hk.trans (key_of_some hm).symm)]
        exact mem_walk_self f m
      · exact mem_walk_of_listed (ih hr hk) (mem_listed_iff.2 hm)

/-! ### Keys in lexicographic order -/

theorem lt_of_extends {k l : List Nat} {i : Nat} (h : k ++ [i] <+: l) : k < l := by
  obtain ⟨r, rfl⟩ := h
  induction k with
  | nil => exact List.Lex.nil
  | cons a k ih => exact List.Lex.cons ih

theorem lt_of_extends_next {k x y : List Nat} {i j : Nat} (hij : i < j) (hx : k ++ [i] <+: x)
    (hy : k ++ [j] <+: y) : x < y := by
  obtain ⟨r, rfl⟩ := hx
  obtain ⟨r', rfl⟩ := hy
  induction k with
  | nil => exact List.Lex.rel hij
  | cons a k ih => exact List.Lex.cons ih

theorem listed_sorted (f : Forest) (n : Node) :
    (f.listed n).Pairwise fun a b => (f.listed n).idxOf a < (f.listed n).idxOf b :=
  pairwise_idxOf (f.listed_nodup n)

theorem walk_sorted (f : Forest) (n : Node) : (f.walk n).Pairwise fun a b => f.key a < f.key b := by
  induction n using listed_induction (f := f) with
  | up n ih =>
    have below : ∀ {c x : Node}, c ∈ f.listed n → x ∈ f.walk c →
        f.key n ++ [(f.listed n).idxOf c] <+: f.key x := fun hc hx => by
      rw [← key_of_some (mem_listed_iff.1 hc)]
      exact (mem_walk.1 hx).2
    rw [walk_eq, List.pairwise_cons]
    refine ⟨fun m hm => ?_, List.pairwise_flatMap.2 ⟨ih, ?_⟩⟩
    · obtain ⟨c, hc, hm⟩ := List.mem_flatMap.1 hm
      exact lt_of_extends (below hc hm)
    · refine (f.listed_sorted n).imp_of_mem fun ha hb hab x hx y hy => ?_
      exact lt_of_extends_next hab (below ha hx) (below hb hy)

end Forest

end XPath
