import XPath.Nodes.Order
import XPath.Proofs.Nodes.Subtree

/-!
# Hosts that serve a forest

A host serves a forest if it answers nothing that is not so in the forest; it may fail to answer.
What a task computes over such a host is so in the forest (`Task.run_of_serves`), and climbing from a
node gives the nodes above it (`Node.chain_run`).
-/

namespace XPath

/-- What the host answers is true of the forest. It may fail to answer. -/
def Host.Serves (h : Host) (f : Forest) : Prop :=
  ∀ q a, h.answer q = .ok a → (Host.ofForest f).answer q = .ok a

theorem Host.ofForest_serves (f : Forest) : (Host.ofForest f).Serves f := fun _ _ => id

theorem Host.absent_serves (f : Forest) : Host.absent.Serves f := fun _ _ ha => nomatch ha

/-- A task that succeeds over a host that serves a forest computes what is so in the forest. -/
theorem Task.run_of_serves {α : Type} {h : Host} {f : Forest} (hs : h.Serves f) {t : Task α} {a : α}
    (hr : t.run h = .ok a) : t.run (.ofForest f) = .ok a := by
  induction t with
  | pure | fail => exact hr
  | ask q next ih =>
    rw [run] at hr ⊢
    cases hq : h.answer q with
    | error e => simp [hq] at hr
    | ok b =>
      rw [hq] at hr
      rw [hs q b hq]
      exact ih b hr

/-- What a task computes depends on the answers only. -/
theorem Task.run_eq_of_answer {α : Type} {h h' : Host} (hh : h.answer = h'.answer) (t : Task α) :
    t.run h = t.run h' := by
  induction t with
  | pure | fail => rfl
  | ask q next ih => simp only [run, hh, ih]

theorem Task.run_bind_ok {α β : Type} {h : Host} {t : Task α} {a : α} (ht : t.run h = .ok a)
    (k : α → Task β) : (t >>= k).run h = (k a).run h :=
  (Task.run_bind h t k).trans (by rw [ht]; rfl)

/-! ## The nodes above a node -/

namespace Forest

/-- A node and the nodes above it, the root first. -/
def lineage (f : Forest) (n : Node) : List Node :=
  match _hp : f.parent? n with
  | some p => lineage f p ++ [n]
  | none => [n]
termination_by n.path.length
decreasing_by exact parent?_length _hp

variable {f : Forest} {n m p : Node} {above below : List Node}

theorem lineage_of_none (hp : f.parent? n = none) : f.lineage n = [n] := by
  rw [lineage]
  split <;> simp_all

theorem lineage_of_some (hp : f.parent? n = some p) : f.lineage n = f.lineage p ++ [n] := by
  rw [lineage]
  split <;> simp_all

theorem lineage_eq_concat (f : Forest) (n : Node) : ∃ above, f.lineage n = above ++ [n] := by
  rcases hp : f.parent? n with _ | p
  · exact ⟨[], lineage_of_none hp⟩
  · exact ⟨_, lineage_of_some hp⟩

theorem headD_lineage (f : Forest) (n m : Node) : (f.lineage n).headD m = f.root n := by
  induction n using parent_induction (f := f) with
  | top n hn => rw [lineage_of_none hn, root_of_none hn, List.headD_cons]
  | down n p hn ih =>
    obtain ⟨above, hp⟩ := f.lineage_eq_concat p
    rw [lineage_of_some hn, root_of_some hn, ← ih, hp]
    cases above <;> rfl

/-- The way down to a node goes, as far as any node on it, as the way down to that one. -/
theorem lineage_split (hl : f.lineage n = above ++ m :: below) : f.lineage m = above ++ [m] := by
  induction n using parent_induction (f := f) generalizing below with
  | top n hn =>
    rw [lineage_of_none hn, List.singleton_eq_append_iff] at hl
    rcases hl with ⟨rfl, hl⟩ | ⟨-, hl⟩
    · cases hl
      rw [lineage_of_none hn, List.nil_append]
    · cases hl
  | down n p hn ih =>
    rw [lineage_of_some hn] at hl
    rcases List.eq_nil_or_concat below with rfl | ⟨below, b, rfl⟩
    · obtain ⟨hp, hm⟩ := List.append_inj' hl rfl
      cases hm
      rw [lineage_of_some hn, hp]
    · rw [List.concat_eq_append, ← List.cons_append, ← List.append_assoc] at hl
      exact ih (List.append_inj' hl rfl).1

/-- A node on the way down is the parent of the next one. -/
theorem parent_of_lineage (hl : f.lineage n = above ++ p :: m :: below) : f.parent? m = some p := by
  have hsplit : f.lineage n = above ++ [p] ++ m :: below := by
    rw [hl, List.append_assoc, List.singleton_append]
  have hm := lineage_split hsplit
  rcases hq : f.parent? m with _ | q
  · have hlength := congrArg List.length hm
    simp [lineage_of_none hq] at hlength
  · rw [lineage_of_some hq] at hm
    obtain ⟨above', hq'⟩ := f.lineage_eq_concat q
    rw [hq'] at hm
    have hpq := (List.append_inj' (List.append_inj' hm rfl).1 rfl).2
    rw [List.singleton_inj.1 hpq]

theorem length_lineage (f : Forest) (n : Node) : (f.lineage n).length = (f.key n).length + 1 := by
  induction n using parent_induction (f := f) with
  | top n hn => rw [lineage_of_none hn, key_of_none hn, List.length_singleton, List.length_nil]
  | down n p hn ih =>
    rw [lineage_of_some hn, key_of_some hn, List.length_append, List.length_append, ih]
    rfl

theorem length_lineage_le (f : Forest) (n : Node) : (f.lineage n).length ≤ n.path.length + 1 := by
  induction n using parent_induction (f := f) with
  | top n hn =>
    rw [lineage_of_none hn, List.length_singleton]
    omega
  | down n p hn ih =>
    have := parent?_length hn
    rw [lineage_of_some hn, List.length_append, List.length_singleton]
    omega

/-- A node lies on the way down to those on its walk. -/
theorem mem_lineage : m ∈ f.lineage n ↔ n ∈ f.walk m := by
  induction n using parent_induction (f := f) with
  | top n hn =>
    rw [lineage_of_none hn, List.mem_singleton, mem_walk, root_of_none hn, key_of_none hn,
      List.prefix_nil]
    constructor
    · rintro rfl
      exact ⟨root_of_none hn, key_of_none hn⟩
    · rintro ⟨hr, hk⟩
      exact ext_key (hr.trans (root_of_none hn).symm) (hk.trans (key_of_none hn).symm)
  | down n p hn ih =>
    rw [lineage_of_some hn, List.mem_append, List.mem_singleton, ih]
    constructor
    · rintro (hm | rfl)
      · exact mem_walk_of_listed hm (mem_listed_iff.2 hn)
      · exact mem_walk_self f m
    · intro hm
      obtain ⟨hr, hk⟩ := mem_walk.1 hm
      rw [key_of_some hn, List.prefix_concat_iff] at hk
      rcases hk with hk | hk
      · exact .inr (ext_key hr (hk.trans (key_of_some hn).symm))
      · exact .inl (mem_walk.2 ⟨hr.trans (root_of_some hn), hk⟩)

end Forest

namespace Node

open Forest

variable {f : Forest} {n : Node}

theorem chain_run {fuel : Nat} (hf : n.path.length < fuel) (below : List Node) :
    (chain fuel n below).run (.ofForest f) = .ok (f.lineage n ++ below) := by
  induction fuel generalizing n below with
  | zero => omega
  | succ fuel ih =>
    have hparent : (Task.parent n).run (.ofForest f) = .ok (f.parent? n) := rfl
    rw [chain, Task.run_bind_ok hparent]
    rcases hp : f.parent? n with _ | p
    · rw [lineage_of_none hp]
      rfl
    · have := parent?_length hp
      rw [lineage_of_some hp, List.append_assoc]
      exact ih (by omega) (n :: below)

theorem lineage_run (f : Forest) (n : Node) : n.lineage.run (.ofForest f) = .ok (f.lineage n) := by
  rw [lineage, chain_run (Nat.lt_succ_self _), List.append_nil]

end Node

end XPath
