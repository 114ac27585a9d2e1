import Mathlib.Data.List.Perm.Basic
import XPath.Proofs.Library.Calls
import XPath.Proofs.Nodes.CanonicalOrder
import XPath.Proofs.Nodes.Enumeration

/-!
# Finding elements by identifier

A search visits the nodes of a tree, numbers them on the way down and tests them on the way back
(`IdSearch.visit_run`). So it comes to the tests of all nodes in postorder, which change nothing once
nothing is wanted any more (`IdSearch.test`), and sorting by the numbers puts what has been found into
document order (`IdSearch.run_eq`). Over a host that answers about a forest, calls provide the elements
that are sought (`Forest.search_selects`).
-/

namespace XPath

/-- Elements that are numbered by their positions in a list are sorted by their numbers. -/
theorem sort_numbered {α : Type} [DecidableEq α] {order l ms : List α} (ho : order.Nodup)
    (hl : l.Perm ms) (hms : ms.Sublist order) :
    ((l.map fun a => (order.idxOf a, a)).mergeSort fun a b => a.1 ≤ b.1).map (·.2) = ms := by
  set numbered := l.map fun a => (order.idxOf a, a) with hnumbered
  have hperm : ((numbered.mergeSort fun a b => a.1 ≤ b.1).map (·.2)).Perm ms := by
    have hmap : numbered.map (·.2) = l := by
      rw [hnumbered, List.map_map]
      exact List.map_id _
    exact ((List.mergeSort_perm numbered _).map _).trans (hmap.symm ▸ hl)
  have hnumber : ∀ {x}, x ∈ numbered.mergeSort (fun a b => a.1 ≤ b.1) →
      x.1 = order.idxOf x.2 := fun hx => by
    obtain ⟨a, -, rfl⟩ := List.mem_map.1 (List.mem_mergeSort.1 hx)
    rfl
  have hsorted : ((numbered.mergeSort fun a b => a.1 ≤ b.1).map (·.2)).Pairwise fun a b =>
      order.idxOf a ≤ order.idxOf b := by
    refine List.pairwise_map.2 (List.Pairwise.imp_of_mem (fun hx hy hxy => ?_)
      (List.pairwise_mergeSort (fun a b c hab hbc => ?_) (fun a b => ?_) numbered))
    · rw [← hnumber hx, ← hnumber hy]
      exact of_decide_eq_true hxy
    · exact decide_eq_true ((of_decide_eq_true hab).trans (of_decide_eq_true hbc))
    · simpa using Nat.le_total a.1 b.1
  refine hperm.eq_of_pairwise (fun a b ha hb hab hba => ?_) hsorted ?_
  · exact (List.idxOf_inj (hms.subset (hperm.subset ha))).1 (Nat.le_antisymm hab hba)
  · exact ((pairwise_idxOf ho).imp Nat.le_of_lt).sublist hms

namespace Forest

variable {f : Forest} {n m : Node}

/-- The nodes below a node and then the node itself, children before their parent throughout. -/
def postorder (f : Forest) (n : Node) : List Node :=
  ((f.children n).attach.flatMap fun c => postorder f c.1) ++ [n]
termination_by n.height
decreasing_by exact children_height c.2

theorem postorder_eq (f : Forest) (n : Node) :
    f.postorder n = (f.children n).flatMap f.postorder ++ [n] := by
  rw [postorder]
  simp [List.flatMap]

/-- The nodes met on the way back are those met on the way down. -/
theorem postorder_perm (f : Forest) (n : Node) : (f.postorder n).Perm (n :: f.descendants n) := by
  induction n using listed_induction (f := f) with
  | up n ih =>
    rw [postorder_eq, descendants_eq]
    refine (List.perm_append_singleton n _).trans (.cons n (.flatMap_left _ fun c hc => ?_))
    exact ih c (List.mem_append_right _ hc)

/-- The value that a search looks at: elements have one if they have the attribute. -/
def reference? (f : Forest) (lookup : IdLookup) (n : Node) : Option String :=
  if n.kind = .element then f.attributeValue? n lookup.attributeName else none

end Forest

namespace IdSearch

open Forest

variable {f : Forest} {lookup : IdLookup} {s : IdSearch} {n m : Node} {order before rest l : List Node}
  {wanted : List String}

/-! ## One walk -/

/-- What becomes of a node once the nodes below it are done, if the nodes of the tree are numbered in this
order. -/
def test (f : Forest) (lookup : IdLookup) (order : List Node) (s : IdSearch) (n : Node) : IdSearch :=
  if s.wanted.isEmpty then s
  else
    match f.reference? lookup n with
    | some value => s.consider lookup (order.idxOf n) n value
    | none => s

/-- The search after this many nodes. -/
def after (s : IdSearch) (visited : Nat) : IdSearch := { s with visited := visited }

@[simp] theorem after_wanted (s : IdSearch) (k : Nat) : (s.after k).wanted = s.wanted := rfl

@[simp] theorem after_visited (s : IdSearch) (k : Nat) : (s.after k).visited = k := rfl

@[simp] theorem after_after (s : IdSearch) (j k : Nat) : (s.after j).after k = s.after k := rfl

/-- Whether the value of an attribute is one of those wanted, or has one of them among its words. -/
def fits (lookup : IdLookup) (wanted : List String) (value : String) : Bool :=
  match lookup with
  | .id => wanted.contains value
  | .idref => (wordsOf value).any wanted.contains

/-- What is still wanted once an element with the value has been found. -/
def left (lookup : IdLookup) (wanted : List String) (value : String) : List String :=
  match lookup with
  | .id => wanted.filter (· != value)
  | .idref => wanted

theorem consider_eq (s : IdSearch) (i : Nat) (n : Node) (value : String) :
    s.consider lookup i n value = if fits lookup s.wanted value then
      ⟨left lookup s.wanted value, s.visited, s.found ++ [(i, n)]⟩ else s := by
  cases lookup <;> rfl

theorem consider_after (k i : Nat) (value : String) :
    (s.after k).consider lookup i n value = (s.consider lookup i n value).after k := by
  rw [consider_eq, consider_eq, after_wanted]
  split <;> rfl

/-- Tests do not look at how many nodes have been visited. -/
theorem test_after (k : Nat) :
    test f lookup order (s.after k) n = (test f lookup order s n).after k := by
  rw [test, test, after_wanted]
  split
  · rfl
  · cases f.reference? lookup n with
    | none => rfl
    | some value => exact consider_after k _ value

theorem foldl_test_after (k : Nat) :
    l.foldl (test f lookup order) (s.after k) = (l.foldl (test f lookup order) s).after k := by
  induction l generalizing s with
  | nil => rfl
  | cons n l ih => rw [List.foldl_cons, test_after, ih, List.foldl_cons]

/-- Once nothing is wanted any more, tests leave the search as it is. -/
theorem foldl_test_done (hs : s.wanted.isEmpty) : l.foldl (test f lookup order) s = s := by
  induction l with
  | nil => rfl
  | cons n l ih => rw [List.foldl_cons, test, if_pos hs, ih]

/-- The task comes to the tests of these nodes, and with something still wanted this many nodes have been
visited by then. -/
def Passes (f : Forest) (lookup : IdLookup) (order : List Node) (t : Task IdSearch) (s : IdSearch)
    (l : List Node) (visited : Nat) : Prop :=
  ∃ k, t.run (.ofForest f) = .ok ((l.foldl (test f lookup order) s).after k) ∧
    ((l.foldl (test f lookup order) s).wanted ≠ [] → k = visited)

theorem passes_children {fuel : Nat} {cs : List Node}
    (each : ∀ c ∈ cs, ∀ s before rest, order = before ++ (c :: f.descendants c) ++ rest →
      (s.wanted ≠ [] → s.visited = before.length) →
      Passes f lookup order (visit lookup fuel s c) s (f.postorder c)
        (before ++ c :: f.descendants c).length)
    (ho : order = before ++ (cs.flatMap fun c => c :: f.descendants c) ++ rest)
    (hs : s.wanted ≠ [] → s.visited = before.length) :
    Passes f lookup order (Task.foldl (visit lookup fuel) s cs) s (cs.flatMap f.postorder)
      (before ++ cs.flatMap fun c => c :: f.descendants c).length := by
  induction cs generalizing s before with
  | nil => exact ⟨s.visited, rfl, by simpa using hs⟩
  | cons c cs ih =>
    rw [List.flatMap_cons] at ho
    obtain ⟨k, hrun, hk⟩ := each c List.mem_cons_self s before _ (by simpa using ho) hs
    have ho' : order = (before ++ c :: f.descendants c) ++
        (cs.flatMap fun c => c :: f.descendants c) ++ rest := by simpa using ho
    obtain ⟨k', hrun', hk'⟩ := ih (s := ((f.postorder c).foldl (test f lookup order) s).after k)
      (fun c hc => each c (List.mem_cons_of_mem _ hc)) ho' hk
    rw [foldl_test_after] at hrun' hk'
    rw [List.flatMap_cons, List.flatMap_cons, Passes, List.foldl_append, ← List.append_assoc]
    exact ⟨k', (Task.run_bind_ok hrun _).trans hrun', hk'⟩

/-- Once the nodes below it have been visited, a visit goes on to the test of the node itself. -/
theorem visit_succ_run {fuel k : Nat} {t : IdSearch} (hs : ¬s.wanted.isEmpty)
    (hnumber : order.idxOf n = s.visited)
    (hrun : (Task.foldl (visit lookup fuel) (s.after (s.visited + 1)) (f.children n)).run (.ofForest f) =
      .ok (t.after k)) :
    (visit lookup (fuel + 1) s n).run (.ofForest f) = .ok ((test f lookup order t n).after k) := by
  have hchildren : (Task.children n).run (.ofForest f) = .ok (f.children n) := rfl
  rw [visit, if_neg hs, Task.run_bind_ok hchildren]
  refine (Task.run_bind_ok hrun _).trans ?_
  rw [after_wanted, test]
  split
  case isTrue => rfl
  case isFalse =>
    rw [hnumber, reference?]
    by_cases hkind : n.kind = .element
    · have hvalue : (Task.attributeValue n lookup.attributeName).run (.ofForest f) =
          .ok (f.attributeValue? n lookup.attributeName) := rfl
      rw [if_neg (by simpa using hkind), if_pos hkind, Task.run_bind_ok hvalue]
      cases f.attributeValue? n lookup.attributeName with
      | none => rfl
      | some value => exact congrArg Except.ok (consider_after k _ value)
    · rw [if_pos (by simpa using hkind), if_neg hkind]
      rfl

/-- A visit of a node that is not numbered yet tests the nodes below it and then itself. -/
theorem visit_run {fuel : Nat} (hf : n.height < fuel) (hnodup : order.Nodup)
    (ho : order = before ++ (n :: f.descendants n) ++ rest)
    (hs : s.wanted ≠ [] → s.visited = before.length) :
    Passes f lookup order (visit lookup fuel s n) s (f.postorder n)
      (before ++ n :: f.descendants n).length := by
  induction fuel generalizing n s before rest with
  | zero => omega
  | succ fuel ih =>
    by_cases hdone : s.wanted.isEmpty
    · rw [Passes, visit, if_pos hdone, foldl_test_done hdone]
      exact ⟨s.visited, rfl, fun h => absurd (List.isEmpty_iff.1 hdone) h⟩
    have hvisited := hs (mt List.isEmpty_iff.2 hdone)
    have hnumber : order.idxOf n = s.visited := by
      have hnot : n ∉ before := fun hn => by
        rw [ho, List.append_assoc] at hnodup
        exact (List.nodup_append.1 hnodup).2.2 n hn n List.mem_cons_self rfl
      rw [ho, List.append_assoc, List.idxOf_append_of_notMem hnot, hvisited]
      simp
    have hbelow : order = (before ++ [n]) ++ ((f.children n).flatMap fun c => c :: f.descendants c) ++
        rest := by
      rw [ho, descendants_eq]
      simp
    obtain ⟨k, hrun, hk⟩ := passes_children (s := s.after (s.visited + 1))
      (fun c hc s before rest ho hs => ih (by have := children_height hc; omega) ho hs)
      hbelow (fun _ => by simp [hvisited])
    rw [← descendants_eq, foldl_test_after, after_wanted] at hk
    rw [foldl_test_after, after_after] at hrun
    rw [Passes, postorder_eq, List.foldl_append]
    refine ⟨k, visit_succ_run hdone hnumber hrun, fun hwanted => ?_⟩
    -- If something is still wanted after the test of the node, it was so before.
    rw [hk fun hnone => hwanted (by rwa [foldl_test_done (List.isEmpty_iff.2 hnone)])]
    simp

/-! ## What is found -/

/-- The value of a node if it is wanted. -/
def hit? (f : Forest) (lookup : IdLookup) (wanted : List String) (n : Node) : Option String :=
  (f.reference? lookup n).filter (fits lookup wanted)

/-- What is wanted after the test of a node. -/
def remaining (f : Forest) (lookup : IdLookup) (wanted : List String) (n : Node) : List String :=
  (hit? f lookup wanted n).elim wanted (left lookup wanted)

theorem fits_nil (value : String) : fits lookup [] value = false := by
  cases lookup with
  | id => rfl
  | idref => exact List.any_eq_false.2 fun _ _ => Bool.false_ne_true

theorem test_eq (s : IdSearch) (n : Node) : test f lookup order s n =
    ⟨remaining f lookup s.wanted n, s.visited,
      s.found ++ if (hit? f lookup s.wanted n).isSome then [(order.idxOf n, n)] else []⟩ := by
  have hnone (hhit : hit? f lookup s.wanted n = none) :
      s = ⟨remaining f lookup s.wanted n, s.visited,
        s.found ++ if (hit? f lookup s.wanted n).isSome then [(order.idxOf n, n)] else []⟩ := by
    simp [remaining, hhit]
  rw [test]
  split
  case isTrue hdone =>
    refine hnone ?_
    rw [hit?, List.isEmpty_iff.1 hdone, Option.filter_eq_none_iff]
    exact fun value _ => by simp [fits_nil]
  case isFalse =>
    rcases hvalue : f.reference? lookup n with _ | value
    · exact hnone (by rw [hit?, hvalue, Option.filter_none])
    · simp only [consider_eq]
      split
      case isTrue hfits => simp [remaining, hit?, hvalue, Option.filter_some, hfits]
      case isFalse hfits => exact hnone (by simp [hit?, hvalue, Option.filter_some, hfits])

/-- Of the nodes of a list, in the order in which they are tested, those that are found: the first node
with one of the identifiers that are wanted, or every node with one of them among its references. -/
def isFound (f : Forest) (lookup : IdLookup) (wanted : List String) (l : List Node) (n : Node) : Bool :=
  match lookup with
  | .id => ∃ v ∈ wanted, l.find? (f.reference? .id · = some v) = some n
  | .idref => (hit? f .idref wanted n).isSome

/-- Once the first element with it has been found, an identifier is not wanted any more. -/
theorem mem_remaining {v : String} :
    v ∈ remaining f .id wanted n ↔ v ∈ wanted ∧ f.reference? .id n ≠ some v := by
  rw [remaining, hit?]
  rcases hvalue : f.reference? .id n with _ | value
  · simp
  · by_cases hfits : fits .id wanted value
    · rw [Option.filter_some_pos hfits, Option.elim_some, left, List.mem_filter, bne_iff_ne]
      exact and_congr_right fun _ => not_congr (by rw [Option.some.injEq, eq_comm])
    · have hnot : value ∉ wanted := by simpa [fits] using hfits
      simp only [Option.filter_some, hfits, Option.elim, ne_eq, Option.some.injEq]
      exact ⟨fun hv => ⟨hv, fun h => hnot (h ▸ hv)⟩, And.left⟩

theorem isFound_head : isFound f lookup wanted (n :: l) n = (hit? f lookup wanted n).isSome := by
  cases lookup with
  | idref => rfl
  | id =>
    rw [isFound, hit?, Bool.eq_iff_iff, decide_eq_true_eq, Option.isSome_filter, Option.any_eq_true]
    constructor
    · rintro ⟨v, hv, hfind⟩
      exact ⟨v, by simpa using List.find?_some hfind, by simpa [fits] using hv⟩
    · rintro ⟨v, hvalue, hfits⟩
      exact ⟨v, by simpa [fits] using hfits, List.find?_cons_of_pos (by simpa using hvalue)⟩

/-- The other nodes are found among what is left to be found. -/
theorem isFound_tail (hm : m ≠ n) :
    isFound f lookup wanted (n :: l) m = isFound f lookup (remaining f lookup wanted n) l m := by
  cases lookup with
  | idref =>
    have hsame : remaining f .idref wanted n = wanted := by
      rw [remaining]
      cases hit? f .idref wanted n <;> rfl
    rw [hsame]
    rfl
  | id =>
    refine decide_eq_decide.2 (exists_congr fun v => ?_)
    rw [mem_remaining, and_assoc]
    refine and_congr_right fun _ => ?_
    by_cases hvalue : f.reference? .id n = some v
    · rw [List.find?_cons_of_pos (by simpa using hvalue)]
      simp [hvalue, hm.symm]
    · rw [List.find?_cons_of_neg (by simpa using hvalue)]
      exact (and_iff_right hvalue).symm

theorem foldl_found (hl : l.Nodup) : (l.foldl (test f lookup order) s).found =
    s.found ++ (l.filter (isFound f lookup s.wanted l)).map fun n => (order.idxOf n, n) := by
  induction l generalizing s with
  | nil => exact (List.append_nil _).symm
  | cons n l ih =>
    obtain ⟨hn, hl⟩ := List.nodup_cons.1 hl
    have htail : l.filter (isFound f lookup s.wanted (n :: l)) =
        l.filter (isFound f lookup (remaining f lookup s.wanted n) l) :=
      List.filter_congr fun m hm => isFound_tail fun h => hn (h ▸ hm)
    rw [List.foldl_cons, ih hl, test_eq, List.filter_cons, isFound_head, htail, List.append_assoc]
    cases (hit? f lookup s.wanted n).isSome <;> rfl

theorem isFound_congr {wanted' : List String} (hw : ∀ v, v ∈ wanted ↔ v ∈ wanted') :
    isFound f lookup wanted l n = isFound f lookup wanted' l n := by
  cases lookup with
  | id => simp only [isFound, hw]
  | idref =>
    have hcontains : wanted.contains = wanted'.contains := by
      funext v
      simp only [List.contains_eq_mem, hw]
    have hfits : fits .idref wanted = fits .idref wanted' := by
      funext value
      rw [fits, fits, hcontains]
    rw [isFound, isFound, hit?, hit?, hfits]

/-- A search from any node of a tree gives the nodes of the tree that it finds, in document order. -/
theorem run_eq (f : Forest) (lookup : IdLookup) (wanted : List String) (n : Node) :
    (run lookup wanted n).run (.ofForest f) = .ok ((f.root n :: f.descendants (f.root n)).filter
      (isFound f lookup wanted (f.postorder (f.root n)))) := by
  set r := f.root n with hr
  set order := r :: f.descendants r with horder
  have hnodup : order.Nodup := (ordered_of_walk (f.self_descendants_sublist_walk r)).nodup
  have hperm : (f.postorder r).Perm order := f.postorder_perm r
  have hwhole : order = [] ++ (r :: f.descendants r) ++ [] := by simp [horder]
  obtain ⟨k, hvisit, -⟩ : Passes f lookup order (visit lookup (r.height + 1) ⟨wanted.eraseDups, 0, []⟩ r)
      ⟨wanted.eraseDups, 0, []⟩ (f.postorder r) _ :=
    visit_run (Nat.lt_succ_self r.height) hnodup hwhole fun _ => rfl
  have hfound : ((f.postorder r).foldl (test f lookup order) ⟨wanted.eraseDups, 0, []⟩).found = _ :=
    foldl_found (hperm.nodup_iff.2 hnodup)
  rw [List.nil_append, List.filter_congr fun m _ => isFound_congr fun v => List.mem_eraseDups] at hfound
  rw [run, Task.run_bind_ok (Node.lineage_run f n), headD_lineage, ← hr, Task.run_bind_ok hvisit]
  refine congrArg Except.ok ?_
  change (List.mergeSort ((f.postorder r).foldl (test f lookup order) _).found _).map (·.2) = _
  rw [hfound]
  exact sort_numbered hnodup (hperm.filter _) List.filter_sublist

end IdSearch

/-! ## What is sought -/

namespace Forest

variable {f : Forest} {lookup : IdLookup} {n m : Node} {texts : List String}

/-- What a search is for. With an identifier among the words of the texts, a tree has at most one element
that counts: the first one that has it, children before their parent. Every element counts that has one of
the texts among the words of its references. -/
def Sought (f : Forest) (lookup : IdLookup) (texts : List String) (n m : Node) : Prop :=
  match lookup with
  | .id => ∃ v ∈ texts.flatMap wordsOf,
      (f.postorder (f.root n)).find? (f.reference? .id · = some v) = some m
  | .idref => ∃ v, f.reference? .idref m = some v ∧ ∃ w ∈ wordsOf v, w ∈ texts

/-- The nodes on a walk are attributes, apart from the descendants of the node and the node itself. -/
theorem mem_self_descendants (hm : m ∈ f.walk n) (hk : m.kind ≠ .attribute) :
    m ∈ n :: f.descendants n := by
  rcases eq_or_ne m n with rfl | hne
  · exact List.mem_cons_self
  · have habove := Axis.mem_ancestors.1 (mem_ancestors_iff.2 ⟨hm, hne.symm⟩)
    exact List.mem_cons_of_mem _ (Axis.mem_descendants.2 ((Axis.relates_descendant hk).2 habove))

theorem kind_of_reference? {v : String} (hv : f.reference? lookup n = some v) : n.kind = .element := by
  rw [reference?] at hv
  split at hv
  · assumption
  · cases hv

/-- The elements that a search with these texts finds in the tree of a node. -/
def foundBy (f : Forest) (lookup : IdLookup) (texts : List String) (n : Node) : List Node :=
  (f.root n :: f.descendants (f.root n)).filter (IdSearch.isFound f lookup
    (match lookup with | .id => texts.flatMap wordsOf | .idref => texts) (f.postorder (f.root n)))

/-- What a search finds is what is sought. -/
theorem selects_found (f : Forest) (lookup : IdLookup) (texts : List String) (n : Node) :
    f.Selects (f.walk (f.root n)) (f.Sought lookup texts n) (f.foundBy lookup texts n) := by
  have hbelow := f.self_descendants_sublist_walk (f.root n)
  refine selects_sublist (List.filter_sublist.trans hbelow) fun m => ?_
  rw [foundBy.eq_def, List.mem_filter]
  cases lookup with
  | id =>
    rw [IdSearch.isFound, decide_eq_true_eq]
    refine ⟨fun h => ⟨hbelow.subset h.1, h.2⟩, fun h => ⟨?_, h.2⟩⟩
    obtain ⟨v, -, hfind⟩ := h.2
    exact (f.postorder_perm _).subset (List.mem_of_find?_eq_some hfind)
  | idref =>
    have hsought : IdSearch.isFound f .idref texts (f.postorder (f.root n)) m ↔
        f.Sought .idref texts n m := by
      rw [IdSearch.isFound, IdSearch.hit?, Option.isSome_filter, Option.any_eq_true]
      exact exists_congr fun v => and_congr_right fun _ => by simp [IdSearch.fits]
    rw [hsought]
    refine ⟨fun h => ⟨hbelow.subset h.1, h.2⟩, fun h => ⟨?_, h.2⟩⟩
    obtain ⟨v, hv, -⟩ := h.2
    exact mem_self_descendants h.1 (by rw [kind_of_reference? hv]; decide)

end Forest

/-! ## Calls -/

open Producer

variable {h : Host} {f : Forest} {c : CallContext} {p start ids : Producer} {s t u w : Session}
  {d : Draw} {lookup : IdLookup} {n : Node} {texts : List String}

/-- The argument is converted to strings with these texts. -/
def Producer.GivesStrings (h : Host) (p : Producer) (s : Session) (texts : List String) (t : Session) :
    Prop :=
  ∃ (vs : List Value) (as : List Atomic), Yields h (atomize .live p) s vs none t ∧
    SequenceType.Takes ⟨.known .string, .zeroOrMore⟩ vs (as.map .atomic) ∧ as.map Atomic.text = texts

theorem Producer.GivesStrings.yields {place : ParameterPlace} (hp : p.GivesStrings h s texts t) :
    ∃ as : List Atomic, as.map Atomic.text = texts ∧
      Yields h (p.convert .live ⟨.known .string, .zeroOrMore⟩ place) s (as.map .atomic) none t := by
  obtain ⟨vs, as, hy, htakes, htexts⟩ := hp
  exact ⟨as, htexts, Yields.convert ⟨.known .string, .zeroOrMore⟩ place hy htakes⟩

/-- A search takes the node to start from and then reads the strings to their end. -/
theorem Producer.Draws.searchFrom {q : Producer} {as : List Atomic}
    (hs : h.answer = (Host.ofForest f).answer) (hstart : Draws h start s (.item (.node n) q) t)
    (hids : Yields h ids t (as.map .atomic) none u)
    (hd : Draws h (ofList ((f.foundBy lookup (as.map Atomic.text) n).map .node)) u d w) :
    Draws h (searchFrom .live lookup ids start) s d w := by
  have hatoms : (as.map Value.atomic).filterMap Value.atomic? = as := by
    rw [List.filterMap_map]
    exact List.filterMap_some
  refine .gather_enough hstart rfl (hids.drain ?_)
  rw [hatoms]
  exact Draws.perform ((Task.run_eq_of_answer hs _).trans (IdSearch.run_eq f lookup _ n)) hd

namespace Forest

/-- Over a host that answers about a forest, however late, calls find the elements that are sought in the
tree of a node, each once and in document order, whether the node to start from is an argument or the
context item. -/
theorem search_selects (hs : h.answer = (Host.ofForest f).answer) (hc : c.access = .live)
    (lookup : IdLookup) (texts : List String) (n : Node) :
    f.Selects (f.walk (f.root n)) (f.Sought lookup texts n) (f.foundBy lookup texts n) ∧
      (∀ ids start s t u, Yields h start s.calm [.node n] none t → ids.GivesStrings h t texts u →
        ∃ p, (Function.builtin (.search lookup false)).invoke c [ids, start] = .ok p ∧
          p.Provides h s ((f.foundBy lookup texts n).map .node) none) ∧
      ∀ ids s t, c.context.item = some (.node n) → ids.GivesStrings h s.calm texts t →
        ∃ p, (Function.builtin (.search lookup true)).invoke c [ids] = .ok p ∧
          p.Provides h s ((f.foundBy lookup texts n).map .node) none := by
  obtain ⟨context, access, namespaces⟩ := c
  obtain rfl : access = .live := hc
  have provided {ids start q : Producer} {as : List Atomic} {s : Session} {t u : Session}
      (hstart : Draws h start s.calm (.item (.node n) q) t)
      (hids : Yields h ids t (as.map .atomic) none u) :
      (searchFrom .live lookup ids start).Provides h s
        ((f.foundBy lookup (as.map Atomic.text) n).map .node) none :=
    Yields.provides (.imp (fun _ _ => .searchFrom hs hstart hids) (.ofList _ _)) rfl
  have htypes : (Builtin.search lookup false).signature.parameters =
      [⟨.known .string, .zeroOrMore⟩, ⟨.known .node, .exactlyOne⟩] := by cases lookup <;> rfl
  have htypes' : (Builtin.search lookup true).signature.parameters =
      [⟨.known .string, .zeroOrMore⟩] := by cases lookup <;> rfl
  refine ⟨f.selects_found lookup texts n, fun ids start s t u hstart hids => ?_,
    fun ids s t hitem hids => ?_⟩
  · obtain ⟨as, rfl, hids⟩ := hids.yields
    obtain ⟨q, hstart⟩ : ∃ q, Draws h (start.convert .live ⟨.known .node, .exactlyOne⟩
        ⟨(Builtin.search lookup false).signature.label, 2⟩) s.calm (.item (.node n) q) t :=
      Yields.convert_one _ _ hstart rfl n.converts
    exact ⟨_, Function.invoke_builtin htypes rfl, provided hstart hids⟩
  · obtain ⟨as, rfl, hids⟩ := hids.yields
    have hcontext (function : String) (next : Value → Reply) :
        (CallContext.contextItem ⟨context, .live, namespaces⟩ function >>= next) = next (.node n) := by
      rw [CallContext.contextItem, hitem]
      rfl
    exact ⟨_, (Function.invoke_builtin htypes' rfl).trans (hcontext _ _), provided .emit hids⟩

/-- Of the elements with the first identifier the inner one comes first on the way back, and of those with
the second one the former. The search starts from an attribute or from the context item; the host
suspends before every answer. -/
theorem search_selects_nested :
    let id (v : String) : QName × String := (⟨none, "id", none⟩, v)
    let idref (v : String) : QName × String := (⟨none, "idref", none⟩, v)
    let forest : Forest := [.element ⟨none, "r", none⟩ [id "a"]
      [.element ⟨none, "x", none⟩ [id "b", idref "d"] [.element ⟨none, "y", none⟩ [id "a"] []],
        .element ⟨none, "z", none⟩ [id "b", idref "c d"] []]]
    let host : Host := { Host.ofForest forest with delay := fun _ _ => 1 }
    let x : Node := ⟨0, [.child 0], .element, some ⟨none, "x", none⟩, 2⟩
    let y : Node := ⟨0, [.child 0, .child 0], .element, some ⟨none, "y", none⟩, 1⟩
    let z : Node := ⟨0, [.child 1], .element, some ⟨none, "z", none⟩, 1⟩
    let start : Node := ⟨0, [.attribute 1, .child 1], .attribute, some ⟨none, "idref", none⟩, 0⟩
    let context : CallContext := ⟨{ Context.empty with item := some (.node start) }, .live, .standard⟩
    (∃ p, (Function.builtin (.search .id false)).invoke context
        [singleton (.string " a  b e "), singleton (.node start)] = .ok p ∧
      p.Provides host .empty ([x, y].map .node) none) ∧
    ∃ p, (Function.builtin (.search .idref true)).invoke context [singleton (.string "d")] = .ok p ∧
      p.Provides host .empty ([x, z].map .node) none := by
  intro id idref forest host x y z start context
  have hstrings (text : String) : (singleton (.string text)).GivesStrings host Session.empty.calm [text]
      Session.empty.calm := by
    have hatomized : Yields host (atomize .live (singleton (.string text))) Session.empty.calm
        ([Atomic.string text].map .atomic) none Session.empty.calm :=
      Yields.atomize (.item .emit (.finish .done))
    exact ⟨_, [.string text], hatomized, ⟨rfl, .cons (.instance rfl) .nil⟩, rfl⟩
  obtain ⟨-, hid, -⟩ := search_selects (h := host) (f := forest) (c := context) rfl rfl .id
    [" a  b e "] start
  obtain ⟨-, -, hidref⟩ := search_selects (h := host) (f := forest) (c := context) rfl rfl .idref
    ["d"] start
  have hfirst : forest.foundBy .id [" a  b e "] start = [x, y] := by
    have hwords : [" a  b e "].flatMap wordsOf = ["a", "b", "e"] := by decide +kernel
    simp only [foundBy, hwords]
    decide +kernel
  have hboth : forest.foundBy .idref ["d"] start = [x, z] := by decide +kernel
  exact ⟨hfirst ▸ hid _ _ _ _ _ (.item .emit (.finish .done)) (hstrings _),
    hboth ▸ hidref _ _ _ rfl (hstrings _)⟩

end Forest

end XPath
