import XPath.Proofs.Nodes.Changes

/-!
# Qualifiers

Trees that differ in the qualifiers of their names alone need not be equal: attributes are put into the
order of their written names and then compared by their expanded names. Where no two attributes of an
element have the same expanded name, such trees are equal exactly when at every two corresponding
elements the attributes come into one order (`Tree.Requalified.essence_iff`), and what holds of two
trees holds of their corresponding parts (`Forest.requalified_below`).
-/

namespace XPath

/-- The name without its qualifier. -/
def QName.bare (q : QName) : QName := { q with qualifier := none }

theorem QName.bare_inj {q r : QName} : q.bare = r.bare ↔ q.expanded = r.expanded := by
  simp [bare, expanded, and_comm]

namespace Tree

variable {t u v : Tree} {cs ds : List Tree} {as bs : List (QName × String)} {step : Descent}

mutual

/-- The tree without the qualifiers of elements and attributes. -/
def bare : Tree → Tree
  | document cs => document (bares cs)
  | element n as cs => element n.bare (as.map fun a => (a.1.bare, a.2)) (bares cs)
  | .attribute n v => .attribute n.bare v
  | t => t

def bares : List Tree → List Tree
  | [] => []
  | c :: cs => bare c :: bares cs

end

mutual

/-- At every two corresponding elements that count, the attributes in the order of their written names
have the same expanded names. -/
def InLine : Tree → Tree → Prop
  | document cs, document ds => AllInLine cs ds
  | element _ as cs, element _ bs ds =>
    (significant as).map (·.1.expanded) = (significant bs).map (·.1.expanded) ∧ AllInLine cs ds
  | _, _ => True

def AllInLine : List Tree → List Tree → Prop
  | c :: cs, d :: ds => (c.counts → InLine c d) ∧ AllInLine cs ds
  | _, _ => True

end

theorem bares_eq (cs : List Tree) : bares cs = cs.map bare := by
  induction cs with
  | nil => rfl
  | cons c cs ih => rw [bares, ih, List.map_cons]

theorem kind_bare (t : Tree) : t.bare.kind = t.kind := by cases t <;> simp only [bare, kind]

theorem counts_of_bare (h : t.bare = u.bare) : t.counts = u.counts := by
  rw [counts, counts, ← kind_bare t, ← kind_bare u, h]

/-! ## Attributes -/

/-- Attributes are counted by their namespaces, whatever their qualifiers. -/
theorem counted_bare (h : (as.map fun a => (a.1.bare, a.2)) = bs.map fun b => (b.1.bare, b.2)) :
    (counted as).map bareAttribute = (counted bs).map bareAttribute := by
  have hcounted : ∀ as : List (QName × String), (counted as).map bareAttribute =
      (counted (as.map fun a => (a.1.bare, a.2))).map bareAttribute := fun as => by
    rw [counted, counted, List.filter_map, List.map_map]
    rfl
  rw [hcounted as, hcounted bs, h]

/-- Two orders of the same pairs, no two with one key, are one when the keys come in one order. -/
theorem eq_of_perm_of_keys {κ α : Type} {xs ys : List (κ × α)} (hp : xs.Perm ys)
    (hd : (xs.map (·.1)).Nodup) (hkeys : xs.map (·.1) = ys.map (·.1)) : xs = ys := by
  have hlength : xs.length = ys.length := hp.length_eq
  refine List.ext_getElem hlength fun i hx hy => ?_
  have hkey : xs[i].1 = ys[i].1 := by
    simpa only [List.getElem_map] using
      List.getElem_of_eq hkeys (show i < (xs.map (·.1)).length by simpa using hx)
  exact List.inj_on_of_nodup_map hd (List.getElem_mem hx) (hp.mem_iff.2 (List.getElem_mem hy)) hkey

theorem significant_bare_iff
    (h : (as.map fun a => (a.1.bare, a.2)) = bs.map fun b => (b.1.bare, b.2))
    (hd : ((counted as).map fun a => a.1.expanded).Nodup) :
    (significant as).map bareAttribute = (significant bs).map bareAttribute ↔
      (significant as).map (·.1.expanded) = (significant bs).map (·.1.expanded) := by
  have hkeys : ∀ as : List (QName × String),
      ((significant as).map bareAttribute).map (·.1) = (significant as).map (·.1.expanded) := fun as => by
    rw [List.map_map]
    rfl
  have hp : ((significant as).map bareAttribute).Perm ((significant bs).map bareAttribute) :=
    ((significant_perm as).map _).trans (counted_bare h ▸ ((significant_perm bs).map _).symm)
  rw [← hkeys as, ← hkeys bs]
  refine ⟨congrArg _, eq_of_perm_of_keys hp ?_⟩
  rw [hkeys, ((significant_perm as).map _).nodup_iff]
  exact hd

/-! ## Trees -/

/-- Trees that differ in qualifiers alone, no element with two attributes of one expanded name. -/
structure Requalified (t u : Tree) : Prop where
  bare : t.bare = u.bare
  distinct : t.DistinctBy QName.expanded

mutual

theorem essence_iff_inLine : ∀ t u : Tree, t.bare = u.bare → t.DistinctBy QName.expanded →
    (t.essence = u.essence ↔ t.InLine u)
  | document cs, u, hb, hd => by
    cases u with
    | document ds =>
      rw [bare, bare, document.injEq] at hb
      rw [DistinctBy] at hd
      rw [essence, essence, Essence.document.injEq, InLine]
      exact essences_iff_allInLine cs ds hb hd
    | _ => simp [bare] at hb
  | element n as cs, u, hb, hd => by
    cases u with
    | element m bs ds =>
      rw [bare, bare, element.injEq, QName.bare_inj] at hb
      rw [DistinctBy] at hd
      rw [essence, essence, Essence.element.injEq, InLine, significant_bare_iff hb.2.1 hd.1,
        essences_iff_allInLine cs ds hb.2.2 hd.2]
      exact and_iff_right hb.1
    | _ => simp [bare] at hb
  | .attribute n v, u, hb, _ => by
    cases u with
    | «attribute» m w =>
      rw [bare, bare, attribute.injEq, QName.bare_inj] at hb
      simp [essence, InLine, hb]
    | _ => simp [bare] at hb
  | text d, u, hb, _ | comment d, u, hb, _ | instruction _ d, u, hb, _ => by
    cases u with
    | text | comment | instruction => simp_all [bare, essence, InLine]
    | _ => simp [bare] at hb

theorem essences_iff_allInLine : ∀ cs ds : List Tree, bares cs = bares ds →
    AllDistinctBy QName.expanded cs → (essences cs = essences ds ↔ AllInLine cs ds)
  | [], ds, hb, _ => by
    cases ds with
    | nil => simp [AllInLine]
    | cons => simp [bares] at hb
  | c :: cs, ds, hb, hd => by
    cases ds with
    | nil => simp [bares] at hb
    | cons d ds =>
      rw [bares, bares, List.cons.injEq] at hb
      rw [AllDistinctBy] at hd
      have hfirst := essence_iff_inLine c d hb.1 hd.1
      have hrest := essences_iff_allInLine cs ds hb.2 hd.2
      rw [essences, essences, AllInLine, ← hrest, ← hfirst, counts_of_bare hb.1]
      split <;> simp_all

end

theorem Requalified.essence_iff (h : t.Requalified u) : t.essence = u.essence ↔ t.InLine u :=
  essence_iff_inLine t u h.bare h.distinct

/-- Two attributes that exchange their qualifiers come into another order. -/
theorem not_inLine_exchanged {uri : Option String} (huri : uri ≠ some Uri.xmlns) {n m : QName}
    {v w v' w' : String} :
    ¬(element n [(⟨some "p", "a", uri⟩, v), (⟨some "q", "b", uri⟩, w)] cs).InLine
      (element m [(⟨some "q", "a", uri⟩, v'), (⟨some "p", "b", uri⟩, w')] ds) := by
  have hall : ∀ x y : QName × String, x.1.uri = uri → y.1.uri = uri → counted [x, y] = [x, y] := by
    intro x y hx hy
    simp [counted, hx, hy, huri]
  have hfirst : significant [(⟨some "p", "a", uri⟩, v), (⟨some "q", "b", uri⟩, w)] =
      [(⟨some "p", "a", uri⟩, v), (⟨some "q", "b", uri⟩, w)] := by
    refine significant_eq_of_sorted (by rw [hall _ _ rfl rfl]) (List.pairwise_pair.2 (standsBefore_iff.2 (by simp only [QName.label]; decide))) ?_
    rw [hall _ _ rfl rfl]
    exact List.nodup_cons.2 ⟨by simp [QName.label], List.nodup_singleton _⟩
  have hsecond : significant [(⟨some "q", "a", uri⟩, v'), (⟨some "p", "b", uri⟩, w')] =
      [(⟨some "p", "b", uri⟩, w'), (⟨some "q", "a", uri⟩, v')] := by
    refine significant_eq_of_sorted ?_ (List.pairwise_pair.2 (standsBefore_iff.2 (by simp only [QName.label]; decide))) ?_
    · rw [hall _ _ rfl rfl]
      exact .swap ..
    · rw [hall _ _ rfl rfl]
      exact List.nodup_cons.2 ⟨by simp [QName.label], List.nodup_singleton _⟩
  intro hline
  have hnames := hline.1
  rw [hfirst, hsecond] at hnames
  simp [QName.expanded] at hnames

/-! ## Corresponding parts -/

theorem stepInto_bare (t : Tree) (step : Descent) :
    Forest.stepInto t.bare step = (Forest.stepInto t step).map bare := by
  cases step with
  | child i =>
    cases t with
    | document cs | element _ _ cs => simp [Forest.stepInto, bare, children, bares_eq]
    | _ => simp [Forest.stepInto, bare, children]
  | «attribute» i =>
    cases t with
    | element n as cs =>
      simp only [Forest.stepInto, bare, attributes, List.getElem?_map, Option.map_map]
      rfl
    | _ => simp [Forest.stepInto, bare, attributes]

theorem DistinctBy.stepInto {κ : Type} {key : QName → κ} (h : t.DistinctBy key)
    (hv : Forest.stepInto t step = some v) : v.DistinctBy key := by
  cases step with
  | child i =>
    have hmem : v ∈ t.children := List.mem_of_getElem? hv
    cases t with
    | document cs => exact allDistinctBy_iff.1 h v hmem
    | element n as cs => exact allDistinctBy_iff.1 h.2 v hmem
    | _ => cases hmem
  | «attribute» i =>
    obtain ⟨a, -, rfl⟩ := Option.map_eq_some_iff.1 hv
    trivial

/-- One step down in the one tree has a step down in the other. -/
theorem Requalified.stepInto (h : t.Requalified u) (hv : Forest.stepInto t step = some v) :
    ∃ w, Forest.stepInto u step = some w ∧ v.Requalified w := by
  have hstep : (Forest.stepInto u step).map Tree.bare = some v.bare := by
    rw [← stepInto_bare, ← h.bare, stepInto_bare, hv]
    rfl
  obtain ⟨w, hw, hbare⟩ := Option.map_eq_some_iff.1 hstep
  exact ⟨w, hw, hbare.symm, h.distinct.stepInto hv⟩

end Tree

namespace Forest

variable {f : Forest} {n m a : Node} {t u : Tree}

/-- Below two nodes whose subtrees differ in qualifiers alone, to every node of the one corresponds a
node of the other that does so too. -/
theorem requalified_below (ht : f.subtree? n = some t) (hu : f.subtree? m = some u)
    (h : t.Requalified u) {down : List Descent} (ha : f.node? n.tree (down ++ n.path) = some a) :
    ∃ b v w, f.node? m.tree (down ++ m.path) = some b ∧ f.subtree? a = some v ∧
      f.subtree? b = some w ∧ v.Requalified w := by
  have hplaces : ∀ (down : List Descent) (v : Tree), at? f n.tree (down ++ n.path) = some v →
      ∃ w, at? f m.tree (down ++ m.path) = some w ∧ v.Requalified w := by
    intro down
    induction down with
    | nil =>
      intro v hv
      have hvt : v = t := Option.some.inj (hv.symm.trans (subtree?_eq_some.1 ht).1)
      exact ⟨u, (subtree?_eq_some.1 hu).1, hvt ▸ h⟩
    | cons step down ih =>
      intro v hv
      rw [List.cons_append, at?, Option.bind_eq_some_iff] at hv
      obtain ⟨v', hv', hstep⟩ := hv
      obtain ⟨w', hw', hr⟩ := ih v' hv'
      obtain ⟨w, hw, hvw⟩ := hr.stepInto hstep
      exact ⟨w, by rw [List.cons_append, at?, hw']; exact hw, hvw⟩
  obtain ⟨v, hv, rfl⟩ := Option.map_eq_some_iff.1 ha
  obtain ⟨w, hw, hvw⟩ := hplaces down v hv
  exact ⟨nodeOf m.tree (down ++ m.path) w, v, w, by rw [node?, hw]; rfl,
    subtree?_eq_some.2 ⟨hv, rfl⟩, subtree?_eq_some.2 ⟨hw, rfl⟩, hvw⟩

end Forest

end XPath
