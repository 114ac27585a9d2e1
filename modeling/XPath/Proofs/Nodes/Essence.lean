import Mathlib.Data.List.Forall2
import XPath.Proofs.Nodes.Equality
import XPath.Proofs.Nodes.Subtree

/-!
# The essence of a tree

What deep equality sees of a tree: expanded names, the attributes other than namespace declarations
in the order of their written names, the element and text children, and character data. Two nodes of
a forest are deep-equal exactly when their subtrees have the same essence (`Forest.deepEqual_iff`).
Deep equality of nodes is transitive, so that deep-equal nodes are equal to the same nodes
(`Forest.deepEqual_congr`).
-/

namespace XPath

/-- A tree without what deep equality does not look at. -/
inductive Essence where
  | document (content : List Essence)
  | element (name : ExpandedName) (attributes : List (ExpandedName × String)) (content : List Essence)
  | attribute (name : ExpandedName) (value : String)
  /-- A text or a comment. -/
  | characters (data : String)
  | instruction (target data : String)

/-- Of values with strings only these are compared, not the types. -/
theorem Atomic.deepEqual_of_strings {a b : Atomic} {v w : String} (ha : a.scalar = .string v)
    (hb : b.scalar = .string w) : a.deepEqual b = decide (v = w) := by
  rw [deepEqual, isFloatLike, isNumeric, ha, hb]
  rfl

namespace Tree

/-- Trees that count among the children of a document or element. -/
def counts (t : Tree) : Bool := t.kind = .element || t.kind = .text

/-- The order of attributes by their written names. -/
def standsBefore (a b : QName × String) : Bool := !(b.1.label < a.1.label : Bool)

/-- The attributes that count: all but namespace declarations. -/
def counted (attributes : List (QName × String)) : List (QName × String) :=
  attributes.filter (·.1.uri != some Uri.xmlns)

/-- The attributes that count, in the order of their written names. -/
def significant (attributes : List (QName × String)) : List (QName × String) :=
  (counted attributes).mergeSort standsBefore

/-- An attribute without its qualifier. -/
def bareAttribute (a : QName × String) : ExpandedName × String := (a.1.expanded, a.2)

mutual

def essence : Tree → Essence
  | document cs => .document (essences cs)
  | element n as cs => .element n.expanded ((significant as).map bareAttribute) (essences cs)
  | .attribute n v => .attribute n.expanded v
  | text d | comment d => .characters d
  | instruction t d => .instruction t d

def essences : List Tree → List Essence
  | [] => []
  | c :: cs => if c.counts then essence c :: essences cs else essences cs

end

theorem essences_eq (cs : List Tree) : essences cs = (cs.filter counts).map essence := by
  induction cs with
  | nil => rfl
  | cons c cs ih =>
    rw [essences, ih, List.filter_cons]
    split <;> rfl

theorem essence_attributes_iff {as bs : List (QName × String)} :
    (as.map fun a => Tree.attribute a.1 a.2).map essence = (bs.map fun a => Tree.attribute a.1 a.2).map essence ↔
      as.map bareAttribute = bs.map bareAttribute := by
  let whole (a : ExpandedName × String) : Essence := .attribute a.1 a.2
  have hwhole : Function.Injective whole := fun a b h => by
    injection h with hname hvalue
    exact Prod.ext hname hvalue
  have hessence : ∀ as : List (QName × String),
      (as.map fun a => Tree.attribute a.1 a.2).map essence = (as.map bareAttribute).map whole := fun as => by
    rw [List.map_map, List.map_map]
    rfl
  rw [hessence, hessence, (List.map_injective_iff.2 hwhole).eq_iff]

end Tree

namespace Forest

open XPath.Tree

variable {f : Forest} {a b c n m : Node} {t u : Tree}

/-! ## Nodes and their subtrees -/

/-- The nodes stand for the trees, one by one. -/
abbrev Stand (f : Forest) (ns : List Node) (ts : List Tree) : Prop :=
  List.Forall₂ (fun n t => f.subtree? n = some t) ns ts

theorem subtree?_nodeOf {step : Descent} (ht : f.subtree? n = some t) (hu : stepInto t step = some u) :
    f.subtree? (nodeOf n.tree (step :: n.path) u) = some u := by
  have hat := (subtree?_eq_some.1 ht).1
  exact subtree?_eq_some.2 ⟨by simp [nodeOf, at?, hat, hu], rfl⟩

theorem kind_of_subtree? (ht : f.subtree? n = some t) : n.kind = t.kind := by
  rw [← (subtree?_eq_some.1 ht).2]
  rfl

theorem name_of_subtree? (ht : f.subtree? n = some t) : n.name = t.name? := by
  rw [← (subtree?_eq_some.1 ht).2]
  rfl

/-- Nodes made of the elements of a list stand for the trees made of them. -/
theorem stand_map {α : Type} {l : List α} {node : α → Node} {tree : α → Tree}
    (h : ∀ x ∈ l, f.subtree? (node x) = some (tree x)) : f.Stand (l.map node) (l.map tree) := by
  rw [Stand, List.forall₂_map_left_iff, List.forall₂_map_right_iff, List.forall₂_same]
  exact h

theorem stand_children (ht : f.subtree? n = some t) : f.Stand (f.children n) t.children := by
  rw [children, ht, ← List.zipIdx_map_fst 0 t.children]
  exact stand_map fun x hx => subtree?_nodeOf ht (List.mem_zipIdx_iff_getElem?.1 hx)

theorem stand_content (ht : f.subtree? n = some t) :
    f.Stand (Node.content (f.children n)) (t.children.filter counts) := by
  refine List.rel_filter (fun m u hm => ?_) (stand_children ht)
  simp [counts, kind_of_subtree? hm]

theorem stand_significant (ht : f.subtree? n = some t) :
    f.Stand (Node.significantAttributes (f.attributes n))
      ((significant t.attributes).map fun a => .attribute a.1 a.2) := by
  -- Nodes and attributes are filtered and sorted together.
  let node (x : (QName × String) × Nat) : Node :=
    nodeOf n.tree (.attribute x.2 :: n.path) (.attribute x.1.1 x.1.2)
  let kept := t.attributes.zipIdx.filter (·.1.1.uri != some Uri.xmlns)
  let sorted := kept.mergeSort fun x y => standsBefore x.1 y.1
  have hnodes : Node.significantAttributes (f.attributes n) = sorted.map node := by
    have hattributes : f.attributes n = t.attributes.zipIdx.map node := by
      rw [attributes, ht]
    rw [Node.significantAttributes, hattributes, List.filter_map]
    exact (List.map_mergeSort (f := node) fun _ _ _ _ => rfl).symm
  have htrees : significant t.attributes = sorted.map (·.1) := by
    rw [significant, counted, List.map_mergeSort (s := standsBefore) fun _ _ _ _ => rfl]
    refine congrArg (List.mergeSort · standsBefore) ?_
    conv_lhs => rw [← List.zipIdx_map_fst 0 t.attributes, List.filter_map]
    rfl
  rw [hnodes, htrees, List.map_map]
  refine stand_map fun x hx => subtree?_nodeOf ht ?_
  have hmem := List.mem_of_mem_filter (List.mem_mergeSort.1 hx)
  simp [stepInto, List.mem_zipIdx_iff_getElem?.1 hmem]

/-! ## Equality of nodes -/

theorem listsEqual_iff {same : Node → Node → Bool} {ns ms : List Node} {ts us : List Tree}
    (hn : f.Stand ns ts) (hm : f.Stand ms us)
    (hsame : ∀ n ∈ ns, ∀ m t u, f.subtree? n = some t → f.subtree? m = some u →
      (same n m ↔ t.essence = u.essence)) :
    listsEqual same ns ms ↔ ts.map essence = us.map essence := by
  induction hn generalizing ms us with
  | nil => cases hm <;> simp [listsEqual]
  | @cons n t ns ts ht hns ih =>
    cases hm with
    | nil => simp [listsEqual]
    | @cons m u ms us hu hms =>
      rw [List.forall_mem_cons] at hsame
      rw [listsEqual, Bool.and_eq_true, hsame.1 m t u ht hu, ih hms hsame.2, List.map_cons, List.map_cons,
        List.cons.injEq]

theorem sameName_iff (ht : f.subtree? n = some t) (hu : f.subtree? m = some u) :
    n.sameName m ↔ t.name?.map QName.expanded = u.name?.map QName.expanded := by
  rw [Node.sameName, name_of_subtree? ht, name_of_subtree? hu]
  cases t.name? <;> cases u.name? <;> simp [QName.sameName_iff]

/-- The values of leaves are equal when their data are, whatever their types. -/
theorem leafValue_deepEqual (n m : Node) :
    (f.leafValue n).deepEqual (f.leafValue m) ↔ f.data n = f.data m := by
  have hscalar : ∀ n : Node, (f.leafValue n).scalar = .string (f.data n) := fun n => by
    rw [leafValue]
    split <;> rfl
  rw [Atomic.deepEqual_of_strings (hscalar n) (hscalar m), decide_eq_true_eq]

/-- Nodes are deep-equal exactly when their subtrees have the same essence. -/
theorem equalWithin_iff {k : Nat} (ht : f.subtree? n = some t) (hu : f.subtree? m = some u)
    (hk : n.height < k) : f.equalWithin k n m ↔ t.essence = u.essence := by
  induction k generalizing n m t u with
  | zero => omega
  | succ k ih =>
    have below : ∀ c ∈ f.listed n, ∀ d v w, f.subtree? c = some v → f.subtree? d = some w →
        (f.equalWithin k c d ↔ v.essence = w.essence) := fun c hc d v w hv hw => by
      have := listed_height hc
      exact ih hv hw (by omega)
    have hcontent := listsEqual_iff (stand_content ht) (stand_content hu) fun c hc =>
      below c (List.mem_append_right _ (List.mem_of_mem_filter hc))
    have hattributes := listsEqual_iff (stand_significant ht) (stand_significant hu) fun c hc =>
      below c (List.mem_append_left _ (mem_significantAttributes hc))
    have hname := sameName_iff ht hu
    have hvalue := leafValue_deepEqual (f := f) n m
    rw [data, data, ht, hu] at hvalue
    rw [← essences_eq, ← essences_eq] at hcontent
    rw [essence_attributes_iff] at hattributes
    rw [equalWithin, kind_of_subtree? ht, kind_of_subtree? hu]
    cases t with
    | document cs =>
      cases u with
      | document ds => simpa [kind, essence, Tree.children] using hcontent
      | _ => simp [kind, essence, Node.areComparableLeaves]
    | element q as cs =>
      cases u with
      | element r bs ds =>
        simpa [kind, essence, name?, Tree.attributes, Tree.children, and_assoc] using
          and_congr hname (and_congr hattributes hcontent)
      | _ => simp [kind, essence, Node.areComparableLeaves]
    | «attribute» q v =>
      cases u with
      | «attribute» r w =>
        simpa [kind, essence, Node.areComparableLeaves, name?, stringValue, data?] using
          and_congr hname hvalue
      | _ => simp [kind, essence, Node.areComparableLeaves]
    | instruction q d =>
      cases u with
      | instruction r e =>
        simpa [kind, essence, Node.areComparableLeaves, name?, QName.expanded, stringValue, data?] using
          and_congr hname hvalue
      | _ => simp [kind, essence, Node.areComparableLeaves]
    | text d | comment d =>
      cases u with
      | text e | comment e =>
        simpa [kind, essence, Node.areComparableLeaves, name?, stringValue, data?] using
          and_congr hname hvalue
      | _ => simp [kind, essence, Node.areComparableLeaves]

theorem deepEqual_iff (ht : f.subtree? n = some t) (hu : f.subtree? m = some u) :
    f.deepEqual n m ↔ t.essence = u.essence := equalWithin_iff ht hu (Nat.lt_succ_self _)

/-! ## Transitivity -/

theorem listsEqual_trans {same : Node → Node → Bool} (hs : ∀ a b c, same a b → same b c → same a c)
    {as bs cs : List Node} (hab : listsEqual same as bs) (hbc : listsEqual same bs cs) :
    listsEqual same as cs := by
  induction as generalizing bs cs with
  | nil =>
    cases bs with
    | nil => exact hbc
    | cons => cases hab
  | cons a as ih =>
    cases bs with
    | nil => cases hab
    | cons b bs =>
      cases cs with
      | nil => cases hbc
      | cons c cs =>
        rw [listsEqual, Bool.and_eq_true] at hab hbc ⊢
        exact ⟨hs a b c hab.1 hbc.1, ih hab.2 hbc.2⟩

theorem sameName_trans (hab : a.sameName b) (hbc : b.sameName c) : a.sameName c := by
  rw [Node.sameName] at hab hbc ⊢
  cases ha : a.name <;> cases hb : b.name <;> cases hc : c.name <;>
    simp_all [QName.sameName_iff]

theorem areComparableLeaves_trans {k l m : NodeKind} (hkl : Node.areComparableLeaves k l)
    (hlm : Node.areComparableLeaves l m) : Node.areComparableLeaves k m := by
  revert hkl hlm
  cases k <;> cases l <;> cases m <;> decide

/-- The three ways in which nodes can be equal. -/
theorem equalWithin_succ {k : Nat} : f.equalWithin (k + 1) a b ↔
    (a.kind = .document ∧ b.kind = .document) ∧
        listsEqual (f.equalWithin k) (Node.content (f.children a)) (Node.content (f.children b)) ∨
    (a.kind = .element ∧ b.kind = .element) ∧ a.sameName b ∧
        listsEqual (f.equalWithin k) (Node.significantAttributes (f.attributes a))
          (Node.significantAttributes (f.attributes b)) ∧
        listsEqual (f.equalWithin k) (Node.content (f.children a)) (Node.content (f.children b)) ∨
    Node.areComparableLeaves a.kind b.kind ∧ a.sameName b ∧ f.data a = f.data b := by
  rw [equalWithin, ← leafValue_deepEqual]
  cases a.kind <;> cases b.kind <;> simp [Node.areComparableLeaves, and_assoc]

theorem equalWithin_trans {k : Nat} (hab : f.equalWithin k a b) (hbc : f.equalWithin k b c) :
    f.equalWithin k a c := by
  induction k generalizing a b c with
  | zero => cases hab
  | succ k ih =>
    have lists {as bs cs : List Node} (hab : listsEqual (f.equalWithin k) as bs)
        (hbc : listsEqual (f.equalWithin k) bs cs) : listsEqual (f.equalWithin k) as cs := by
      refine listsEqual_trans (fun a b c hab hbc => ?_) hab hbc
      exact ih hab hbc
    rw [equalWithin_succ] at hab hbc ⊢
    rcases hab with ⟨⟨ha, hb⟩, hab⟩ | ⟨⟨ha, hb⟩, hname, hattributes, hab⟩ | ⟨hleaves, hname, hdata⟩
    · rcases hbc with ⟨⟨-, hc⟩, hbc⟩ | ⟨⟨hb', -⟩, -⟩ | ⟨hleaves, -⟩
      · exact .inl ⟨⟨ha, hc⟩, lists hab hbc⟩
      · rw [hb] at hb'
        cases hb'
      · rw [hb] at hleaves
        cases hleaves
    · rcases hbc with ⟨⟨hb', -⟩, -⟩ | ⟨⟨-, hc⟩, hname', hattributes', hbc⟩ | ⟨hleaves, -⟩
      · rw [hb] at hb'
        cases hb'
      · exact .inr (.inl ⟨⟨ha, hc⟩, sameName_trans hname hname', lists hattributes hattributes',
          lists hab hbc⟩)
      · rw [hb] at hleaves
        cases hleaves
    · rcases hbc with ⟨⟨hb, -⟩, -⟩ | ⟨⟨hb, -⟩, -⟩ | ⟨hleaves', hname', hdata'⟩
      · rw [hb, areComparableLeaves_comm] at hleaves
        cases hleaves
      · rw [hb, areComparableLeaves_comm] at hleaves
        cases hleaves
      · exact .inr (.inr ⟨areComparableLeaves_trans hleaves hleaves', sameName_trans hname hname',
          hdata.trans hdata'⟩)

theorem deepEqual_trans (hab : f.deepEqual a b) (hbc : f.deepEqual b c) : f.deepEqual a c := by
  let k := a.height + b.height + 1
  rw [deepEqual, equalWithin_of_height (m := k) (by omega) (by omega)] at hab ⊢
  rw [deepEqual, equalWithin_of_height (m := k) (by omega) (by omega)] at hbc
  exact equalWithin_trans hab hbc

/-- Deep-equal nodes are equal to the same nodes. -/
theorem deepEqual_congr (h : f.deepEqual a b) (c : Node) : f.deepEqual c a = f.deepEqual c b := by
  rw [Bool.eq_iff_iff]
  refine ⟨fun hca => deepEqual_trans hca h, fun hcb => deepEqual_trans hcb ?_⟩
  rwa [deepEqual_comm]

end Forest

end XPath
