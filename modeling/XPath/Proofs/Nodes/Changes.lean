import Mathlib.Logic.Relation
import XPath.Proofs.Nodes.Essence

/-!
# Changes that equality does not see

Attributes may be put into another order, namespace declarations come and go, and so do comments and
processing instructions among the children of an element or document, at any depth: as long as no two
attributes of an element are written alike, the essence of the tree stays the same
(`Tree.Changes.alike`).
-/

namespace XPath

namespace Tree

/-! ## Attributes that are told apart -/

mutual

/-- At every element the attributes that count have different keys. -/
def DistinctBy {κ : Type} (key : QName → κ) : Tree → Prop
  | document cs => AllDistinctBy key cs
  | element _ as cs => ((counted as).map fun a => key a.1).Nodup ∧ AllDistinctBy key cs
  | _ => True

def AllDistinctBy {κ : Type} (key : QName → κ) : List Tree → Prop
  | [] => True
  | c :: cs => DistinctBy key c ∧ AllDistinctBy key cs

end

variable {κ : Type} {key : QName → κ} {t u : Tree} {cs ds : List Tree} {as bs : List (QName × String)}

theorem allDistinctBy_iff : AllDistinctBy key cs ↔ ∀ c ∈ cs, c.DistinctBy key := by
  induction cs with
  | nil => simp [AllDistinctBy]
  | cons c cs ih => rw [AllDistinctBy, ih, List.forall_mem_cons]

theorem standsBefore_iff {a b : QName × String} : standsBefore a b ↔ a.1.label ≤ b.1.label := by
  rw [standsBefore, Bool.not_eq_true', decide_eq_false_iff_not, String.not_lt]

theorem pairwise_significant (as : List (QName × String)) :
    (significant as).Pairwise fun a b => standsBefore a b := by
  refine List.pairwise_mergeSort (fun a b c hab hbc => ?_) (fun a b => ?_) _
  · rw [standsBefore_iff] at hab hbc ⊢
    exact String.le_trans hab hbc
  · rw [Bool.or_eq_true, standsBefore_iff, standsBefore_iff]
    exact String.le_total ..

theorem significant_perm (as : List (QName × String)) : (significant as).Perm (counted as) :=
  List.mergeSort_perm ..

/-- Attributes that are written differently have one order: it is any that is sorted. -/
theorem significant_eq_of_sorted (hp : (counted as).Perm bs) (hs : bs.Pairwise fun a b => standsBefore a b)
    (hd : ((counted as).map fun a => a.1.label).Nodup) : significant as = bs := by
  refine List.Perm.eq_of_pairwise (fun a b ha hb hab hba => ?_) (pairwise_significant as) hs
    ((significant_perm as).trans hp)
  rw [standsBefore_iff] at hab hba
  have ha' := (significant_perm as).mem_iff.1 ha
  have hb' := hp.mem_iff.2 hb
  exact List.inj_on_of_nodup_map hd ha' hb' (String.le_antisymm hab hba)

theorem significant_eq_of_perm (hp : (counted as).Perm (counted bs))
    (hd : ((counted as).map fun a => a.1.label).Nodup) : significant as = significant bs :=
  significant_eq_of_sorted (hp.trans (significant_perm bs).symm) (pairwise_significant bs) hd

/-! ## Changes -/

/-- Comments and processing instructions. -/
def IsAnnotation (t : Tree) : Prop := t.kind = .comment ∨ t.kind = .processingInstruction

/-- One change to a tree. -/
inductive Change : Tree → Tree → Prop
  | permute {name as bs cs} : as.Perm bs → Change (.element name as cs) (.element name bs cs)
  | declare {name as d bs cs} : d.1.uri = some Uri.xmlns →
      Change (.element name (as ++ bs) cs) (.element name (as ++ d :: bs) cs)
  | annotateElement {name as cs c ds} : c.IsAnnotation →
      Change (.element name as (cs ++ ds)) (.element name as (cs ++ c :: ds))
  | annotateDocument {cs c ds} : c.IsAnnotation →
      Change (.document (cs ++ ds)) (.document (cs ++ c :: ds))
  | withinElement {name as cs c c' ds} : Change c c' →
      Change (.element name as (cs ++ c :: ds)) (.element name as (cs ++ c' :: ds))
  | withinDocument {cs c c' ds} : Change c c' →
      Change (.document (cs ++ c :: ds)) (.document (cs ++ c' :: ds))

/-- Changes made and taken back, one after the other. -/
abbrev Changes : Tree → Tree → Prop := Relation.EqvGen Change

/-- Trees that equality cannot tell apart, if no two attributes of an element are written alike. -/
structure Alike (t u : Tree) : Prop where
  counts : t.counts = u.counts
  distinct : t.DistinctBy QName.label ↔ u.DistinctBy QName.label
  essence : t.DistinctBy QName.label → t.essence = u.essence

namespace Alike

theorem refl (t : Tree) : t.Alike t := ⟨rfl, .rfl, fun _ => rfl⟩

theorem symm (h : t.Alike u) : u.Alike t :=
  ⟨h.counts.symm, h.distinct.symm, fun hu => (h.essence (h.distinct.2 hu)).symm⟩

theorem trans {v : Tree} (h : t.Alike u) (h' : u.Alike v) : t.Alike v :=
  ⟨h.counts.trans h'.counts, h.distinct.trans h'.distinct,
    fun ht => (h.essence ht).trans (h'.essence (h.distinct.1 ht))⟩

end Alike

theorem essences_append (cs ds : List Tree) : essences (cs ++ ds) = essences cs ++ essences ds := by
  rw [essences_eq, essences_eq, essences_eq, List.filter_append, List.map_append]

theorem counted_append (as bs : List (QName × String)) : counted (as ++ bs) = counted as ++ counted bs :=
  List.filter_append ..

theorem counted_declaration {d : QName × String} (hd : d.1.uri = some Uri.xmlns) :
    counted (d :: bs) = counted bs := by
  rw [counted, List.filter_cons_of_neg (by simp [hd])]
  rfl

theorem essences_annotation {c : Tree} (hc : c.IsAnnotation) : essences (c :: ds) = essences ds := by
  have hno : c.counts = false := by
    rcases hc with hc | hc <;> rw [counts, hc] <;> rfl
  rw [essences, hno]
  rfl

theorem IsAnnotation.distinctBy {c : Tree} (hc : c.IsAnnotation) : c.DistinctBy key := by
  cases c with
  | document | element => rcases hc with hc | hc <;> cases hc
  | _ => trivial

/-- Children that equality cannot tell apart, because one of them has been changed so. -/
theorem Alike.children {c c' : Tree} (h : c.Alike c') (cs ds : List Tree) :
    (AllDistinctBy QName.label (cs ++ c :: ds) ↔ AllDistinctBy QName.label (cs ++ c' :: ds)) ∧
      (AllDistinctBy QName.label (cs ++ c :: ds) →
        essences (cs ++ c :: ds) = essences (cs ++ c' :: ds)) := by
  simp only [allDistinctBy_iff, List.forall_mem_append, List.forall_mem_cons, essences_append, essences,
    h.counts, h.distinct, true_and]
  rintro ⟨-, hc, -⟩
  rw [h.essence (h.distinct.2 hc)]

theorem annotated_children {c : Tree} (hc : c.IsAnnotation) (cs ds : List Tree) :
    (AllDistinctBy QName.label (cs ++ ds) ↔ AllDistinctBy QName.label (cs ++ c :: ds)) ∧
      essences (cs ++ ds) = essences (cs ++ c :: ds) := by
  have hdistinct : c.DistinctBy QName.label := hc.distinctBy
  rw [essences_append, essences_append, essences_annotation hc]
  simp only [allDistinctBy_iff, List.forall_mem_append, List.forall_mem_cons, hdistinct, true_and,
    and_self]

theorem Change.alike (h : Change t u) : t.Alike u := by
  induction h with
  | @permute name as bs cs hp =>
    have hcounted : (counted as).Perm (counted bs) := hp.filter _
    have hnames := (hcounted.map fun a => a.1.label).nodup_iff
    refine ⟨rfl, by rw [DistinctBy, DistinctBy, hnames], fun hd => ?_⟩
    rw [DistinctBy] at hd
    rw [Tree.essence, Tree.essence, significant_eq_of_perm hcounted hd.1]
  | @declare name as d bs cs hd =>
    have hcounted : counted (as ++ d :: bs) = counted (as ++ bs) := by
      rw [counted_append, counted_append, counted_declaration hd]
    refine ⟨rfl, by rw [DistinctBy, DistinctBy, hcounted], fun _ => ?_⟩
    rw [Tree.essence, Tree.essence, significant, significant, hcounted]
  | @annotateElement name as cs c ds hc =>
    obtain ⟨hdistinct, hessences⟩ := annotated_children hc cs ds
    exact ⟨rfl, by rw [DistinctBy, DistinctBy, hdistinct], fun _ => by
      rw [Tree.essence, Tree.essence, hessences]⟩
  | @annotateDocument cs c ds hc =>
    obtain ⟨hdistinct, hessences⟩ := annotated_children hc cs ds
    exact ⟨rfl, by rw [DistinctBy, DistinctBy, hdistinct], fun _ => by
      rw [Tree.essence, Tree.essence, hessences]⟩
  | @withinElement name as cs c c' ds _ ih =>
    obtain ⟨hdistinct, hessences⟩ := ih.children cs ds
    refine ⟨rfl, by rw [DistinctBy, DistinctBy, hdistinct], fun hd => ?_⟩
    rw [DistinctBy] at hd
    rw [Tree.essence, Tree.essence, hessences hd.2]
  | @withinDocument cs c c' ds _ ih =>
    obtain ⟨hdistinct, hessences⟩ := ih.children cs ds
    refine ⟨rfl, by rw [DistinctBy, DistinctBy, hdistinct], fun hd => ?_⟩
    rw [DistinctBy] at hd
    rw [Tree.essence, Tree.essence, hessences hd]

theorem Changes.alike (h : Changes t u) : t.Alike u := by
  induction h with
  | rel _ _ h => exact h.alike
  | refl t => exact .refl t
  | symm _ _ _ ih => exact ih.symm
  | trans _ _ _ _ _ ih ih' => exact ih.trans ih'

end Tree

end XPath
