import Mathlib.Algebra.Order.Field.Basic
import Mathlib.Algebra.Order.Field.Rat
import Mathlib.Data.Finset.Defs
import Mathlib.Data.Set.Insert
import XPath.Proofs.Lazy.CellCourses
import XPath.Proofs.Lazy.Likeness

/-!
# Realms

A realm says how the cells of a session depend on one another. Every cell has a rank, and its source
refers to cells of lower ranks only, so no cell is read while it is being computed. The focus sequence
of a filter belongs to the agent that goes through the filter: the source of a cell, or a reading of a
host. A cell that comes about within a predicate may depend on that focus sequence; it needs the agent.

A cell with an error may have an owner only if that owner is gone, because the error has ended it as
well (`Realm.Fits`). So the length of a focus sequence is never asked for after it has failed. Computing
a cell within another computation keeps to this (`Passage.leave`).
-/

namespace XPath

open Producer

/-! ## Agents and views -/

/-- Who keeps focus sequences in cells. -/
inductive Agent where
  /-- The host, for the contexts that it gives. -/
  | host
  /-- A sequence that the host reads. -/
  | reading (k : Nat)
  /-- The source of a cell. -/
  | cell (n : Nat)

/-- From where a computation looks at the cells: it sees those of lower ranks that need no other agents
than it does itself. -/
structure View where
  rank : ℚ
  agent : Agent
  needs : Set Agent

namespace View

/-- The agents that a computation depends on. -/
def crew (v : View) : Set Agent := insert v.agent v.needs

/-- Within the predicates of its filters, a computation needs itself. -/
def inside (v : View) : View := ⟨v.rank, v.agent, v.crew⟩

/-- The view of the source of a gathering, which may be a predicate. -/
def sourced (v : View) (predicate : Bool) : View := if predicate then v.inside else v

variable {v : View}

@[simp] theorem crew_inside : v.inside.crew = v.crew :=
  Set.insert_eq_of_mem (Set.mem_insert ..)

@[simp] theorem inside_inside : v.inside.inside = v.inside := by
  simp only [inside, crew, Set.insert_eq_of_mem (Set.mem_insert v.agent v.needs)]

@[simp] theorem crew_sourced (b : Bool) : (v.sourced b).crew = v.crew := by
  cases b
  · rfl
  · exact crew_inside

@[simp] theorem rank_sourced (b : Bool) : (v.sourced b).rank = v.rank := by cases b <;> rfl

theorem needs_subset_crew : v.needs ⊆ v.crew := Set.subset_insert ..

end View

/-- Ranks, needs and owners of the cells of a session, and what each stands for in another one. -/
structure Realm where
  size : Nat
  rank : Nat → ℚ
  needs : Nat → Set Agent
  owner : Nat → Option Agent
  partner : Nat → Nat

namespace Realm

/-- More cells may be added. -/
instance : Preorder Realm where
  le r r' := r.size ≤ r'.size ∧ ∀ a < r.size, r'.rank a = r.rank a ∧ r'.needs a = r.needs a ∧
    r'.owner a = r.owner a ∧ r'.partner a = r.partner a
  le_refl _ := ⟨Nat.le_refl _, fun _ _ => ⟨rfl, rfl, rfl, rfl⟩⟩
  le_trans r r' r'' h h' := by
    refine ⟨Nat.le_trans h.1 h'.1, fun a ha => ?_⟩
    obtain ⟨hr, hn, ho, hp⟩ := h.2 a ha
    obtain ⟨hr', hn', ho', hp'⟩ := h'.2 a (Nat.lt_of_lt_of_le ha h.1)
    exact ⟨hr'.trans hr, hn'.trans hn, ho'.trans ho, hp'.trans hp⟩

/-- The view of the source of a cell. -/
def view (r : Realm) (a : Nat) : View := ⟨r.rank a, .cell a, r.needs a⟩

/-- A cell is seen, and what it stands for. -/
structure Sees (r : Realm) (v : View) (a b : Nat) : Prop where
  lt : a < r.size
  partner : r.partner a = b
  rank : r.rank a < v.rank
  needs : r.needs a ⊆ v.needs

/-- A cell that is seen is known unless it is kept for another agent; focus sequences may be measured
within the predicates that they are for. -/
def scope (r : Realm) (v : View) : Scope
  | .known => fun a b => r.Sees v a b ∧ ∀ g, r.owner a = some g → g ∈ v.needs
  | .measured => fun a b => r.Sees v a b ∧ ∃ g ∈ v.needs, r.owner a = some g

def owned (r : Realm) (v : View) : Matching := fun a b => r.Sees v a b ∧ r.owner a = some v.agent

/-- A cell that is seen and may be read. -/
def Reads (r : Realm) (v : View) (a b : Nat) : Prop :=
  r.Sees v a b ∧ ∀ g, r.owner a = some g → g ∈ v.crew

variable {r r' r'' : Realm} {v : View} {a b : Nat}

theorem Sees.inside (ha : r.Sees v a b) : r.Sees v.inside a b :=
  ⟨ha.lt, ha.partner, ha.rank, ha.needs.trans View.needs_subset_crew⟩

theorem scope_inside (r : Realm) (v : View) : r.scope v ≤ r.scope v.inside := by
  rintro (_ | _) a b ⟨ha, ho⟩
  · exact ⟨ha.inside, fun g hg => View.needs_subset_crew (ho g hg)⟩
  · obtain ⟨g, hg, ho⟩ := ho
    exact ⟨ha.inside, g, View.needs_subset_crew hg, ho⟩

/-- What a computation with this view depends on. -/
def ties (r : Realm) (v : View) : Ties :=
  ⟨r.scope v, r.owned v, r.scope v.inside, r.owned v.inside, r.scope_inside v⟩

theorem ties_sourced (b : Bool) : (r.ties v).sourced b = r.ties (v.sourced b) := by
  cases b
  · rfl
  · simp only [Ties.sourced, View.sourced, ties, Ties.inside, if_true, View.inside_inside]

/-! ### Growing -/

theorem view_eq (h : r ≤ r') (ha : a < r.size) : r'.view a = r.view a := by
  obtain ⟨hr, hn, -, -⟩ := h.2 a ha
  rw [view, view, hr, hn]

theorem Sees.mono (h : r ≤ r') (ha : r.Sees v a b) : r'.Sees v a b := by
  obtain ⟨hr, hn, -, hp⟩ := h.2 a ha.lt
  exact ⟨Nat.lt_of_lt_of_le ha.lt h.1, hp.trans ha.partner, hr ▸ ha.rank, hn ▸ ha.needs⟩

theorem scope_mono (h : r ≤ r') (v : View) : r.scope v ≤ r'.scope v := by
  rintro (_ | _) a b ⟨ha, ho⟩
  all_goals
    rw [← (h.2 a ha.lt).2.2.1] at ho
    exact ⟨ha.mono h, ho⟩

theorem owned_mono (h : r ≤ r') (v : View) : r.owned v ≤ r'.owned v := by
  rintro a b ⟨ha, ho⟩
  rw [← (h.2 a ha.lt).2.2.1] at ho
  exact ⟨ha.mono h, ho⟩

theorem ties_mono (h : r ≤ r') (v : View) : r.ties v ≤ r'.ties v :=
  ⟨scope_mono h _, owned_mono h _, scope_mono h _, owned_mono h _⟩

theorem ties_view_mono (h : r ≤ r') (ha : a < r.size) : r.ties (r.view a) ≤ r'.ties (r'.view a) := by
  rw [view_eq h ha]
  exact ties_mono h _

/-- What is known to the source of a cell is known wherever the cell is seen. -/
theorem scope_view_le (ha : r.Sees v a b) : r.scope (r.view a) ≤ r.scope v := by
  have seen {c d : Nat} (hc : r.Sees (r.view a) c d) : r.Sees v c d :=
    ⟨hc.lt, hc.partner, hc.rank.trans ha.rank, hc.needs.trans ha.needs⟩
  rintro (_ | _) c d ⟨hc, ho⟩
  · exact ⟨seen hc, fun g hg => ha.needs (ho g hg)⟩
  · obtain ⟨g, hg, ho⟩ := ho
    exact ⟨seen hc, g, ha.needs hg, ho⟩

theorem reads_of_readable {s : Shared} (h : (r.ties v).Readable s (.cell b)) :
    ∃ a, s = .cell a ∧ r.Reads v a b := by
  cases h with
  | known h =>
    cases h with
    | cell h => exact ⟨_, rfl, h.1, fun g hg => View.needs_subset_crew (h.2 g hg)⟩
  | measured h =>
    obtain ⟨ha, g, hg, ho⟩ := h
    refine ⟨_, rfl, ha, fun g' hg' => View.needs_subset_crew ?_⟩
    cases ho.symm.trans hg'
    exact hg
  | owned h =>
    refine ⟨_, rfl, h.1, fun g hg => ?_⟩
    cases h.2.symm.trans hg
    exact Set.mem_insert ..

/-! ### New cells -/

/-- A further cell. -/
def add (r : Realm) (x : ℚ) (needs : Set Agent) (owner : Option Agent) (partner : Nat) : Realm where
  size := r.size + 1
  rank := Function.update r.rank r.size x
  needs := Function.update r.needs r.size needs
  owner := Function.update r.owner r.size owner
  partner := Function.update r.partner r.size partner

theorem le_add (r : Realm) (x : ℚ) (needs : Set Agent) (owner : Option Agent) (partner : Nat) :
    r ≤ r.add x needs owner partner := by
  refine ⟨Nat.le_succ _, fun a ha => ?_⟩
  have hne := Nat.ne_of_lt ha
  exact ⟨Function.update_of_ne hne .., Function.update_of_ne hne .., Function.update_of_ne hne ..,
    Function.update_of_ne hne ..⟩

/-- There is room between a view and all that it sees. -/
theorem exists_rank (f : Nat → ℚ) (x : ℚ) (n : Nat) : ∃ y < x, ∀ a < n, f a < x → f a < y := by
  induction n with
  | zero =>
    obtain ⟨y, hy⟩ := exists_lt x
    exact ⟨y, hy, fun a ha => absurd ha (Nat.not_lt_zero a)⟩
  | succ n ih =>
    obtain ⟨y, hyx, hy⟩ := ih
    by_cases hn : f n < x
    · obtain ⟨z, hz, hzx⟩ := exists_between (max_lt hyx hn)
      refine ⟨z, hzx, fun a ha hax => ?_⟩
      rcases Nat.lt_succ_iff_lt_or_eq.1 ha with ha | rfl
      · exact (hy a ha hax).trans ((le_max_left ..).trans_lt hz)
      · exact (le_max_right ..).trans_lt hz
    · refine ⟨y, hyx, fun a ha hax => ?_⟩
      rcases Nat.lt_succ_iff_lt_or_eq.1 ha with ha | rfl
      · exact hy a ha hax
      · exact absurd hax hn

/-- A computation may put a sequence into a new cell that it sees, for itself or for everyone. -/
theorem exists_add (r : Realm) (v : View) (owner : Option Agent) (n : Nat) :
    ∃ r', r ≤ r' ∧ r'.size = r.size + 1 ∧ r'.Sees v r.size n ∧ r'.owner r.size = owner ∧
      Ties.of (r.scope v) ≤ r'.ties (r'.view r.size) := by
  obtain ⟨x, hx, hroom⟩ := exists_rank r.rank v.rank r.size
  have hle := r.le_add x v.needs owner n
  have hrank : (r.add x v.needs owner n).rank r.size = x := Function.update_self ..
  have hneeds : (r.add x v.needs owner n).needs r.size = v.needs := Function.update_self ..
  refine ⟨_, hle, rfl, ⟨Nat.lt_succ_self _, Function.update_self .., ?_, ?_⟩,
    Function.update_self .., ?_⟩
  · rw [hrank]
    exact hx
  · rw [hneeds]
  · have hscope : r.scope v ≤ (r.add x v.needs owner n).scope
        ((r.add x v.needs owner n).view r.size) := by
      refine le_trans ?_ (scope_mono hle _)
      rw [view, hrank, hneeds]
      rintro (_ | _) a b ⟨ha, ho⟩
      all_goals exact ⟨⟨ha.lt, ha.partner, hroom a ha.lt ha.rank, ha.needs⟩, ho⟩
    exact (Ties.of_mono hscope).trans (Ties.of_scope_le (Realm.ties ..))

end Realm

/-! ## Errors -/

/-- The cell has an error. -/
def Session.Failed (s : Session) (n : Nat) : Prop := ∃ c, s.cells[n]? = some c ∧ c.error ≠ none

/-- An error has ended what the agent does; the readings that have ended so are given. -/
def Agent.Gone (s : Session) (D : Finset Nat) : Agent → Prop
  | .host => False
  | .reading k => k ∈ D
  | .cell n => s.Failed n

/-- Whether an error is drawn. -/
def Draw.Fails : Draw → Prop
  | .failed _ => True
  | _ => False

namespace Session

variable {s t : Session} {n m : Nat}

theorem failed_of_cells (h : t.cells = s.cells) : t.Failed n ↔ s.Failed n := by
  rw [Failed, Failed, h]

theorem failed_modify {f : Cell → Cell} (h : t.cells = s.cells.modify m f)
    (hf : ∀ c, (f c).error = c.error) : t.Failed n ↔ s.Failed n := by
  rw [Failed, Failed, h, Array.getElem?_modify]
  split
  · cases s.cells[n]? <;> simp [hf]
  · rfl

theorem cells_detach_of_ne (hn : n ≠ m) : (s.detach m).cells[n]? = s.cells[n]? := by
  simp [cells_detach, Array.getElem?_modify, Ne.symm hn]

theorem cells_attach_of_ne {p : Producer} (hn : n ≠ m) :
    (s.attach m p).cells[n]? = s.cells[n]? := by
  simp [cells_attach, Array.getElem?_modify, Ne.symm hn]

theorem failed_detach : (s.detach m).Failed n ↔ s.Failed n :=
  failed_modify (cells_detach s m) fun _ => rfl

theorem failed_attach {p : Producer} : (s.attach m p).Failed n ↔ s.Failed n :=
  failed_modify (cells_attach s m p) fun _ => rfl

theorem failed_spoil {e : Error} :
    (s.spoil m e).Failed n ↔ s.Failed n ∨ n = m ∧ m < s.cells.size := by
  by_cases hn : n = m
  · subst hn
    have hcell : (s.spoil n e).cells[n]? = s.cells[n]?.map ({ · with error := some e }) := by
      simp [cells_spoil, Array.getElem?_modify]
    rw [Failed, hcell]
    by_cases hlt : n < s.cells.size
    · simp [hlt]
    · simp [Failed, hlt]
  · have hcell : (s.spoil m e).cells[n]? = s.cells[n]? := by
      simp [cells_spoil, Array.getElem?_modify, Ne.symm hn]
    simp [Failed, hcell, hn]

theorem failed_absorb {x : Draw} :
    (s.absorb m x).Failed n ↔ s.Failed n ∨ n = m ∧ m < s.cells.size ∧ x.Fails := by
  cases x with
  | item v q =>
    have h : (s.keep m v q).Failed n ↔ s.Failed n := failed_modify (cells_keep s m v q) fun _ => rfl
    simp [absorb, h, Draw.Fails]
  | finish => simp [absorb, Draw.Fails]
  | failed e => simp [absorb, failed_spoil, Draw.Fails]

theorem failed_allocate {p : Producer} : (s.allocate p).2.Failed n ↔ s.Failed n := by
  simp only [Failed, cells_allocate, Array.getElem?_push]
  split
  · next hn =>
    subst hn
    simp
  · rfl

end Session

/-! ## Fitting sessions -/

/-- The owner of a cell with an error is gone, unless it is one of those about to go. -/
structure Realm.Fits (r : Realm) (s : Session) (D : Finset Nat) (X : Set Agent) : Prop where
  size : r.size = s.cells.size
  failed : ∀ n g, s.Failed n → r.owner n = some g → g.Gone s D ∨ g ∈ X

/-- The session is ready for a computation with the view: no agent that it depends on is gone, and the
cells that are being computed are out of its sight. The host does not compute anything. -/
structure Ready (r : Realm) (s : Session) (D : Finset Nat) (Δ : Set Nat) (v : View) : Prop where
  fits : r.Fits s D ∅
  live : ∀ g ∈ v.crew, ¬ g.Gone s D
  busy : ∀ n ∈ Δ, n < r.size ∧ v.rank ≤ r.rank n
  agent : v.agent ≠ .host

/-- What a computation with the view may do to a session: it leaves alone the cells that are being
computed, and if no error is drawn, then no cell comes to have one. No new cell is for the host. -/
structure Passage (v : View) (D : Finset Nat) (Δ : Set Nat) (failed : Prop) (r : Realm) (s : Session)
    (r' : Realm) (s' : Session) : Prop where
  le : r ≤ r'
  fits : r'.Fits s' D {g | failed ∧ g ∈ v.crew}
  same : ∀ n ∈ Δ, s'.cells[n]? = s.cells[n]?
  sound : ¬failed → ∀ n, s'.Failed n → s.Failed n
  fresh : ∀ n < r'.size, r.size ≤ n → r'.owner n ≠ some .host

section

variable {r r' r'' : Realm} {s s' s'' t : Session} {D : Finset Nat} {Δ : Set Nat} {v v' : View}
  {X X' : Set Agent} {failed : Prop} {a b : Nat} {x : Draw}

theorem Session.Failed.lt {n : Nat} (h : s.Failed n) : n < s.cells.size := by
  obtain ⟨c, hc, -⟩ := h
  exact (Array.getElem?_eq_some_iff.1 hc).choose

theorem Agent.Gone.imp {g : Agent} (h : ∀ n, s.Failed n → t.Failed n) (hg : g.Gone s D) :
    g.Gone t D := by
  cases g with
  | host => exact hg
  | reading k => exact hg
  | cell n => exact h n hg

theorem Realm.Fits.imp (h : r.Fits s D X) (hX : X ⊆ X') : r.Fits s D X' :=
  ⟨h.size, fun n g hn hg => (h.failed n g hn hg).imp_right fun hg => hX hg⟩

theorem Realm.Fits.of_cells (h : r.Fits s D X) (ht : t.cells = s.cells) : r.Fits t D X where
  size := by rw [h.size, ht]
  failed n g hn hg := by
    have hfailed {n : Nat} : t.Failed n ↔ s.Failed n := Session.failed_of_cells ht
    exact (h.failed n g (hfailed.1 hn) hg).imp_left fun hgone => hgone.imp fun _ => hfailed.2

namespace Passage

theorem of_cells (hr : Ready r s D Δ v) (ht : t.cells = s.cells) : Passage v D Δ failed r s r t where
  le := le_rfl
  fits := (hr.fits.of_cells ht).imp (Set.empty_subset _)
  same n _ := by rw [ht]
  sound _ n := (Session.failed_of_cells ht).1
  fresh _ hn hn' := absurd hn (Nat.not_lt_of_le hn')

theorem refl (hr : Ready r s D Δ v) : Passage v D Δ failed r s r s := of_cells hr rfl

theorem trans (h : Passage v D Δ False r s r' s') (h' : Passage v D Δ failed r' s' r'' s'') :
    Passage v D Δ failed r s r'' s'' where
  le := h.le.trans h'.le
  fits := h'.fits
  same n hn := (h'.same n hn).trans (h.same n hn)
  sound hf n hn := h.sound not_false n (h'.sound hf n hn)
  fresh n hn hn' := by
    by_cases hlt : n < r'.size
    · rw [(h'.le.2 n hlt).2.2.1]
      exact h.fresh n hlt hn'
    · exact h'.fresh n hn (Nat.le_of_not_lt hlt)

theorem congr {u : View} (hv : v.crew = u.crew) (h : Passage v D Δ failed r s r' s') :
    Passage u D Δ failed r s r' s' := by
  obtain ⟨hle, hfits, hsame, hsound, hfresh⟩ := h
  rw [hv] at hfits
  exact ⟨hle, hfits, hsame, hsound, hfresh⟩

end Passage

theorem Ready.after (hr : Ready r s D Δ v) (h : Passage v D Δ False r s r' s') :
    Ready r' s' D Δ v where
  fits := h.fits.imp fun g hg => hg.1.elim
  live g hg hgone := hr.live g hg (hgone.imp (h.sound not_false))
  busy n hn := by
    obtain ⟨hlt, hrank⟩ := hr.busy n hn
    exact ⟨Nat.lt_of_lt_of_le hlt h.le.1, (h.le.2 n hlt).1 ▸ hrank⟩
  agent := hr.agent

theorem Ready.sourced (hr : Ready r s D Δ v) (predicate : Bool) :
    Ready r s D Δ (v.sourced predicate) where
  fits := hr.fits
  live := by simpa using hr.live
  busy := by simpa using hr.busy
  agent := by
    cases predicate
    · exact hr.agent
    · exact hr.agent

/-! ### Cells within computations -/

/-- The source of a cell that is seen may be computed. -/
theorem Ready.enter (hr : Ready r s D Δ v) (ha : r.Sees v a b) (hs : ¬s.Failed a) :
    Ready r (s.detach a) D (insert a Δ) (r.view a) where
  fits := by
    have hfailed {n : Nat} : (s.detach a).Failed n ↔ s.Failed n := Session.failed_detach
    refine ⟨hr.fits.size.trans (by simp [Session.cells_detach]), fun n g hn hg => ?_⟩
    exact (hr.fits.failed n g (hfailed.1 hn) hg).imp_left fun hgone => hgone.imp fun _ => hfailed.2
  live g hg hgone := by
    have hgone := hgone.imp (t := s) fun n => Session.failed_detach.1
    rcases hg with rfl | hg
    · exact hs hgone
    · exact hr.live g (View.needs_subset_crew (ha.needs hg)) hgone
  busy n hn := by
    rcases hn with rfl | hn
    · exact ⟨ha.lt, le_rfl⟩
    · exact ⟨(hr.busy n hn).1, ha.rank.le.trans (hr.busy n hn).2⟩
  agent := nofun

/-- A cell that is seen is not being computed. -/
theorem Ready.not_mem (hr : Ready r s D Δ v) (ha : r.Sees v a b) : a ∉ Δ :=
  fun hn => ((hr.busy a hn).2.trans_lt ha.rank).false

/-- An error of a focus sequence would have ended the filter that it is the focus of. -/
theorem Ready.sound (hr : Ready r s D Δ v) (ha : (r.scope v) .measured a b) : ¬s.Failed a := by
  obtain ⟨-, g, hg, howner⟩ := ha
  intro hf
  rcases hr.fits.failed a g hf howner with hgone | hx
  · exact hr.live g (View.needs_subset_crew hg) hgone
  · exact hx

/-- The length of a focus sequence is known when nothing is left of it to compute. -/
theorem Ready.length_eq_some (hr : Ready r s D Δ v) (ha : (r.scope v) .measured a b) {m : Nat}
    (hl : s.length? (.cell a) = some m) :
    ∃ items, s.cells[a]? = some ⟨items, none, none⟩ ∧ items.size = m := by
  obtain ⟨⟨items, source, error⟩, hcell⟩ : ∃ c, s.cells[a]? = some c :=
    ⟨_, Array.getElem?_eq_getElem (hr.fits.size ▸ ha.1.lt)⟩
  have herror : error = none := by
    by_contra he
    exact hr.sound ha ⟨_, hcell, he⟩
  subst herror
  rw [Session.length?, hcell] at hl
  rcases source with _ | source <;> cases hl
  exact ⟨items, hcell, rfl⟩

namespace Passage

/-- What has been drawn from the source of a cell is put into the cell; an error that is drawn ends
the computation that wanted to know. -/
theorem leave (hr : Ready r s D Δ v) (ha : r.Reads v a b)
    (h : Passage (r.view a) D (insert a Δ) x.Fails r (s.detach a) r' t) :
    Passage v D Δ x.Fails r s r' (t.absorb a x) where
  le := h.le
  fits := by
    have hlt : a < t.cells.size := h.fits.size ▸ Nat.lt_of_lt_of_le ha.1.lt h.le.1
    have hkeep (n : Nat) (hn : t.Failed n) : (t.absorb a x).Failed n :=
      Session.failed_absorb.2 (.inl hn)
    refine ⟨h.fits.size.trans Session.size_absorb.symm, fun n g hn hg => ?_⟩
    rcases Session.failed_absorb.1 hn with hn | ⟨rfl, -, hx⟩
    · rcases h.fits.failed n g hn hg with hgone | ⟨hx, rfl | hg⟩
      · exact .inl (hgone.imp hkeep)
      · exact .inl (Session.failed_absorb.2 (.inr ⟨rfl, hlt, hx⟩))
      · exact .inr ⟨hx, View.needs_subset_crew (ha.1.needs hg)⟩
    · rw [(h.le.2 n ha.1.lt).2.2.1] at hg
      exact .inr ⟨hx, ha.2 g hg⟩
  same n hn := by
    have hne : n ≠ a := by
      rintro rfl
      exact hr.not_mem ha.1 hn
    rw [Session.cells_absorb hne, h.same n (.inr hn), Session.cells_detach_of_ne hne]
  sound hx n hn := by
    rcases Session.failed_absorb.1 hn with hn | ⟨-, -, hx'⟩
    · exact Session.failed_detach.1 (h.sound hx n hn)
    · exact absurd hx' hx
  fresh := h.fresh

/-- What is left of the source of a cell is put back. -/
theorem leave_attach {p : Producer} (hr : Ready r s D Δ v) (ha : r.Sees v a b)
    (h : Passage (r.view a) D (insert a Δ) False r (s.detach a) r' t) :
    Passage v D Δ False r s r' (t.attach a p) where
  le := h.le
  fits := by
    have hfailed {n : Nat} : (t.attach a p).Failed n ↔ t.Failed n := Session.failed_attach
    refine ⟨h.fits.size.trans (by simp [Session.cells_attach]), fun n g hn hg => ?_⟩
    rcases h.fits.failed n g (hfailed.1 hn) hg with hgone | hx
    · exact .inl (hgone.imp fun _ => hfailed.2)
    · exact hx.1.elim
  same n hn := by
    have hne : n ≠ a := by
      rintro rfl
      exact hr.not_mem ha hn
    rw [Session.cells_attach_of_ne hne, h.same n (.inr hn), Session.cells_detach_of_ne hne]
  sound hx n hn := Session.failed_detach.1 (h.sound hx n (Session.failed_attach.1 hn))
  fresh := h.fresh

/-- A sequence is put into a new cell. -/
theorem allocate {p : Producer} (hr : Ready r s D Δ v) (hle : r ≤ r')
    (hsize : r'.size = r.size + 1) (howner : r'.owner r.size ≠ some .host) :
    Passage v D Δ False r s r' (s.allocate p).2 where
  le := hle
  fits := by
    refine ⟨by simp [hsize, hr.fits.size, Session.cells_allocate], fun n g hn hg => .inl ?_⟩
    have hn := Session.failed_allocate.1 hn
    rw [(hle.2 n (hr.fits.size ▸ hn.lt)).2.2.1] at hg
    exact ((hr.fits.failed n g hn hg).resolve_right (Set.notMem_empty g)).imp fun _ =>
      Session.failed_allocate.2
  same n hn := by
    have hne : n ≠ s.cells.size := Nat.ne_of_lt (hr.fits.size ▸ (hr.busy n hn).1)
    simp [Session.cells_allocate, Array.getElem?_push, hne]
  sound _ n := Session.failed_allocate.1
  fresh n hn hn' := by
    obtain rfl : n = r.size := by omega
    exact howner

end Passage

end

end XPath
