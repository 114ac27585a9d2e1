import XPath.Nodes.Equality
import XPath.Proofs.Atomic.Equality
import XPath.Proofs.Nodes.Sorting

/-!
# Equality of nodes

What the comparison of two nodes comes to over a host that serves a forest, as a function on the
forest (`Node.equalWithin_run`). It does not matter which node comes first, nor how far the walk
downwards is bounded as long as the bound exceeds the height of one of the nodes. Every node equals
itself.
-/

namespace XPath

namespace Forest

variable {f : Forest} {a b n : Node}

/-- The typed value of a leaf. -/
def leafValue (f : Forest) (n : Node) : Atomic :=
  match n.kind with
  | .comment | .processingInstruction => .string (f.data n)
  | _ => .untyped (f.data n)

/-- All pairs of two lists are equal, and the lists are equally long. -/
def listsEqual (same : Node → Node → Bool) : List Node → List Node → Bool
  | [], [] => true
  | a :: as, b :: bs => same a b && listsEqual same as bs
  | _, _ => false

/-- Equality of nodes of at most the given height. -/
def equalWithin (f : Forest) : Nat → Node → Node → Bool
  | 0, _, _ => false
  | fuel + 1, a, b =>
    let contentEqual :=
      listsEqual (equalWithin f fuel) (Node.content (f.children a)) (Node.content (f.children b))
    if a.kind = .document ∧ b.kind = .document then contentEqual
    else if a.kind = .element ∧ b.kind = .element then
      a.sameName b && listsEqual (equalWithin f fuel) (Node.significantAttributes (f.attributes a))
        (Node.significantAttributes (f.attributes b)) && contentEqual
    else if Node.areComparableLeaves a.kind b.kind then
      a.sameName b && (f.leafValue a).deepEqual (f.leafValue b)
    else false

end Forest

namespace Node

variable {f : Forest} {a b n : Node}

theorem pairwise_run {same : Node → Node → Task Bool} {same' : Node → Node → Bool}
    (hs : ∀ a b, (same a b).run (.ofForest f) = .ok (same' a b)) (as bs : List Node) :
    (pairwise same as bs).run (.ofForest f) = .ok (Forest.listsEqual same' as bs) := by
  induction as generalizing bs with
  | nil => cases bs <;> rfl
  | cons a as ih =>
    cases bs with
    | nil => rfl
    | cons b bs =>
      rw [pairwise, Task.run_bind_ok (hs a b), Forest.listsEqual]
      cases same' a b with
      | false => rfl
      | true => exact ih bs

theorem listsEqual_of_length {same : Node → Node → Bool} {as bs : List Node}
    (h : as.length ≠ bs.length) : Forest.listsEqual same as bs = false := by
  induction as generalizing bs with
  | nil =>
    cases bs with
    | nil => exact absurd rfl h
    | cons => rfl
  | cons a as ih =>
    cases bs with
    | nil => rfl
    | cons b bs =>
      rw [Forest.listsEqual, ih (by simpa using h), Bool.and_false]

theorem listsEqual_run {same : Node → Node → Task Bool} {same' : Node → Node → Bool}
    (hs : ∀ a b, (same a b).run (.ofForest f) = .ok (same' a b)) (as bs : List Node) :
    (listsEqual same as bs).run (.ofForest f) = .ok (Forest.listsEqual same' as bs) := by
  rw [listsEqual]
  split
  · exact pairwise_run hs as bs
  · next h => rw [listsEqual_of_length h]; rfl

theorem typedValue_run (hn : ¬n.kind.isParent) :
    (typedValue n).run (.ofForest f) = .ok (f.leafValue n) := by
  rw [typedValue, Forest.leafValue]
  cases hk : n.kind <;> first | rfl | exact absurd (hk ▸ rfl) hn

theorem not_isParent_of_areComparableLeaves (h : areComparableLeaves a.kind b.kind) :
    ¬a.kind.isParent ∧ ¬b.kind.isParent := by
  cases ha : a.kind <;> cases hb : b.kind <;> simp_all [areComparableLeaves, NodeKind.isParent]

/-- What the comparison of two nodes comes to. -/
theorem equalWithin_run (f : Forest) (fuel : Nat) (a b : Node) :
    (equalWithin fuel a b).run (.ofForest f) = .ok (f.equalWithin fuel a b) := by
  induction fuel generalizing a b with
  | zero => rfl
  | succ fuel ih =>
    have content : (do
        let left ← Task.children a
        let right ← Task.children b
        listsEqual (equalWithin fuel) (content left) (content right)).run (.ofForest f) =
        .ok (Forest.listsEqual (f.equalWithin fuel) (content (f.children a))
          (content (f.children b))) := by
      rw [Task.run_bind_ok (a := f.children a) rfl, Task.run_bind_ok (a := f.children b) rfl]
      exact listsEqual_run ih ..
    rw [equalWithin, Forest.equalWithin]
    split
    · exact content
    · split
      · cases a.sameName b with
        | false => rfl
        | true =>
          simp only [Bool.not_true, Bool.false_eq_true, if_false, Bool.true_and]
          rw [Task.run_bind_ok (a := f.attributes a) rfl]
          rw [Task.run_bind_ok (a := f.attributes b) rfl, Task.run_bind_ok (listsEqual_run ih ..)]
          cases Forest.listsEqual (f.equalWithin fuel) (significantAttributes (f.attributes a))
            (significantAttributes (f.attributes b)) with
          | false => rfl
          | true => exact content
      · split
        · next hk =>
          obtain ⟨ha, hb⟩ := not_isParent_of_areComparableLeaves hk
          cases a.sameName b with
          | false => rfl
          | true =>
            simp only [Bool.not_true, Bool.false_eq_true, if_false, Bool.true_and]
            rw [Task.run_bind_ok (typedValue_run ha), Task.run_bind_ok (typedValue_run hb)]
            rfl
        · rfl

end Node

namespace Forest

variable {f : Forest} {a b n : Node} {same same' : Node → Node → Bool}

/-- Deep equality of two nodes of a forest. -/
def deepEqual (f : Forest) (a b : Node) : Bool := f.equalWithin (a.height + 1) a b

theorem deepEqual_run (f : Forest) (a b : Node) :
    (a.deepEqual b).run (.ofForest f) = .ok (f.deepEqual a b) := Node.equalWithin_run ..

/-! ## Symmetry -/

theorem listsEqual_congr {as bs : List Node} (hs : ∀ a ∈ as, ∀ b, same a b = same' a b) :
    listsEqual same as bs = listsEqual same' as bs := by
  induction as generalizing bs with
  | nil => cases bs <;> rfl
  | cons a as ih =>
    cases bs with
    | nil => rfl
    | cons b bs =>
      rw [listsEqual, listsEqual, hs a List.mem_cons_self,
        ih fun a ha => hs a (List.mem_cons_of_mem _ ha)]

theorem listsEqual_comm (hs : ∀ a b, same a b = same b a) (as bs : List Node) :
    listsEqual same as bs = listsEqual same bs as := by
  induction as generalizing bs with
  | nil => cases bs <;> rfl
  | cons a as ih =>
    cases bs with
    | nil => rfl
    | cons b bs => rw [listsEqual, listsEqual, hs, ih]

theorem sameName_comm (a b : Node) : a.sameName b = b.sameName a := by
  rw [Node.sameName, Node.sameName]
  cases a.name <;> cases b.name <;> first | rfl | exact QName.sameName_comm ..

theorem areComparableLeaves_comm (k l : NodeKind) :
    Node.areComparableLeaves k l = Node.areComparableLeaves l k := by
  cases k <;> cases l <;> rfl

theorem equalWithin_comm (f : Forest) (fuel : Nat) (a b : Node) :
    f.equalWithin fuel a b = f.equalWithin fuel b a := by
  induction fuel generalizing a b with
  | zero => rfl
  | succ fuel ih =>
    have hcontent := listsEqual_comm ih (Node.content (f.children a)) (Node.content (f.children b))
    have hattributes := listsEqual_comm ih (Node.significantAttributes (f.attributes a))
      (Node.significantAttributes (f.attributes b))
    rw [equalWithin, equalWithin, hcontent, hattributes, sameName_comm a,
      areComparableLeaves_comm a.kind, Atomic.deepEqual_comm (f.leafValue a)]
    simp only [and_comm]

theorem mem_significantAttributes {attributes : List Node} :
    n ∈ Node.significantAttributes attributes → n ∈ attributes := fun hn =>
  List.mem_of_mem_filter (List.mem_mergeSort.1 hn)

/-- A walk downwards that goes far enough for the first node goes far enough. -/
theorem equalWithin_of_height {n m : Nat} (hn : a.height < n) (hm : a.height < m) :
    f.equalWithin n a b = f.equalWithin m a b := by
  induction n generalizing m a b with
  | zero => omega
  | succ n ih =>
    obtain ⟨m, rfl⟩ : ∃ k, m = k + 1 := ⟨m - 1, by omega⟩
    have below : ∀ c ∈ f.listed a, ∀ d, f.equalWithin n c d = f.equalWithin m c d := fun c hc d => by
      have := listed_height hc
      exact ih (by omega) (by omega)
    have hcontent : ∀ ds, listsEqual (f.equalWithin n) (Node.content (f.children a)) ds =
        listsEqual (f.equalWithin m) (Node.content (f.children a)) ds := fun ds =>
      listsEqual_congr fun c hc => below c (List.mem_append_right _ (List.mem_of_mem_filter hc))
    have hattributes : ∀ ds,
        listsEqual (f.equalWithin n) (Node.significantAttributes (f.attributes a)) ds =
          listsEqual (f.equalWithin m) (Node.significantAttributes (f.attributes a)) ds := fun ds =>
      listsEqual_congr fun c hc => below c (List.mem_append_left _ (mem_significantAttributes hc))
    rw [equalWithin, equalWithin, hcontent, hattributes]

/-- It does not matter which of two nodes comes first. -/
theorem deepEqual_comm (f : Forest) (a b : Node) : f.deepEqual a b = f.deepEqual b a := by
  have enough : ∀ a b : Node,
      f.deepEqual a b = f.equalWithin (a.height + b.height + 1) a b := fun a b =>
    equalWithin_of_height (by omega) (by omega)
  rw [enough, enough, equalWithin_comm, Nat.add_comm b.height]

/-! ## Reflexivity -/

theorem listsEqual_self (ns : List Node) (hs : ∀ n ∈ ns, same n n) : listsEqual same ns ns := by
  induction ns with
  | nil => rfl
  | cons n ns ih =>
    obtain ⟨hn, hns⟩ := List.forall_mem_cons.1 hs
    rw [listsEqual, hn, ih hns]
    rfl

theorem sameName_self (n : Node) : n.sameName n := by
  rw [Node.sameName]
  cases n.name with
  | none => rfl
  | some q => exact (QName.sameName_iff q q).2 rfl

theorem equalWithin_self {k : Nat} (hn : n.height < k) : f.equalWithin k n n := by
  induction k generalizing n with
  | zero => omega
  | succ k ih =>
    have below : ∀ c ∈ f.listed n, f.equalWithin k c c := fun c hc => by
      have := listed_height hc
      exact ih (by omega)
    have hcontent := listsEqual_self (Node.content (f.children n)) fun c hc =>
      below c (List.mem_append_right _ (List.mem_of_mem_filter hc))
    have hattributes := listsEqual_self (Node.significantAttributes (f.attributes n))
      fun c hc => below c (List.mem_append_left _ (mem_significantAttributes hc))
    rw [equalWithin, hcontent, hattributes, sameName_self, (f.leafValue n).deepEqual_self]
    cases hk : n.kind <;> rfl

/-- Every node is deep-equal to itself. -/
theorem deepEqual_self (f : Forest) (n : Node) : f.deepEqual n n :=
  equalWithin_self (Nat.lt_succ_self _)

end Forest

end XPath
