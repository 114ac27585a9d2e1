import Mathlib.Data.Finset.Insert
import XPath.Proofs.Lazy.Recording

/-!
# Chronicles

A host reads several sequences of a session by turns. A world is a chronicle of the session if it records
all of it (`Chronicle.turn`): an error that ends a reading may leave focus sequences of that reading
behind it, and so the reading is gone, but nothing else is. In a session that follows the chronicle, what
has been told of a reading is read at once (`Follower.yields`).
-/

namespace XPath

open Producer

variable {h : Host} {w w' : World} {r r' : Realm} {s s' t : Session} {D D' : Finset Nat} {F : Set Nat}
  {k : Nat}

/-! ## Errors stay -/

/-- A cell keeps its error. -/
theorem Producer.failed_next {n : Nat} (fuel : Nat) (p : Producer) (s : Session) (hs : s.Failed n) :
    (next h fuel p s).session.Failed n := by
  induction fuel generalizing p s with
  | zero => exact hs
  | succ fuel ih =>
    cases p with
    | done | fail | emit | pause => exact hs
    | append first second =>
      exact Turn.andThen_session (P := fun s => s.Failed n) (ih _ _ hs) (fun _ _ _ hs => hs)
        fun _ hs => ih _ _ hs
    | ask q k =>
      have := (Session.failed_of_cells (Session.cells_ask s h q)).2 hs
      simp only [next]
      rcases hask : s.ask h q with ⟨_ | _ | _ | _, t⟩ <;> rw [hask] at this
      · exact ih _ _ this
      all_goals exact this
    | fetch shared i k =>
      simp only [next]
      split
      · exact ih _ _ hs
      · exact ih _ _ hs
      · exact hs
      next cell source _ =>
        have hsource := ih source (s.detach cell) (Session.failed_detach.2 hs)
        split
        next v _ => exact ih _ _ ((Session.failed_absorb (x := .item v _)).2 (.inl hsource))
        · exact ih _ _ hsource
        · exact Session.failed_spoil.2 (.inl hsource)
        all_goals exact Session.failed_attach.2 hsource
    | length shared k => exact ih _ _ hs
    | share source k => exact ih _ _ (Session.failed_allocate.2 hs)
    | gather step j kept source k =>
      refine Turn.andThen_session (P := fun s => s.Failed n) (ih _ _ hs) (fun v r t ht => ?_)
        fun _ hs => ih _ _ hs
      split
      · exact ih _ _ ht
      · exact ih _ _ ht
      · exact ht
    | forEach j source body finish =>
      exact Turn.andThen_session (P := fun s => s.Failed n) (ih _ _ hs) (fun _ _ _ hs => ih _ _ hs)
        fun _ hs => ih _ _ hs
    | apply f call arguments k =>
      simp only [next]
      split
      · exact ih _ _ hs
      · exact hs
    | call call => exact ih _ _ hs
    | log label items rest => exact ih _ _ hs
    | tick rest => exact ih _ _ hs

/-! ## Sessions in order -/

/-- The view of a reading, above all cells. A reading may go through the focus sequences of the host. -/
def View.reading (k : Nat) : View := ⟨0, .reading k, {.host}⟩

/-- What the host and its readings know. -/
abbrev Realm.shared (r : Realm) : Scope := r.scope (.reading 0)

theorem Realm.scope_reading (r : Realm) (k : Nat) : r.scope (.reading k) = r.shared := by
  have hsees (a b : Nat) : r.Sees (.reading k) a b = r.Sees (.reading 0) a b :=
    propext ⟨fun ⟨hlt, hp, hr, hn⟩ => ⟨hlt, hp, hr, hn⟩, fun ⟨hlt, hp, hr, hn⟩ => ⟨hlt, hp, hr, hn⟩⟩
  funext b
  cases b <;> funext m n <;> simp only [shared, scope, hsees] <;> rfl

/-- The cells of the session depend on one another as the realm says, only those in `F` are for the
host, and only the readings in `D` are gone. -/
structure Realm.Orderly (r : Realm) (D : Finset Nat) (F : Set Nat) (s : Session) : Prop where
  partner : ∀ n < r.size, r.partner n = n
  fits : r.Fits s D ∅
  host : ∀ n < r.size, r.owner n = some .host → n ∈ F
  cells : ∀ n < r.size, ∃ c, s.cells[n]? = some c ∧ c.Alike (r.ties (r.view n)) c

namespace Realm.Orderly

/-- A session without cells is in order. -/
theorem empty (D : Finset Nat) (F : Set Nat) (f : Nat → Nat) :
    (⟨0, fun _ => 0, fun _ => ∅, fun _ => none, f⟩ : Realm).Orderly D F .empty where
  partner n hn := absurd hn (Nat.not_lt_zero n)
  fits := ⟨rfl, fun n _ hn => absurd hn.lt (Nat.not_lt_zero n)⟩
  host n hn := absurd hn (Nat.not_lt_zero n)
  cells n hn := absurd hn (Nat.not_lt_zero n)

theorem of_cells (hs : r.Orderly D F s) (ht : t.cells = s.cells) : r.Orderly D F t where
  partner := hs.partner
  fits := hs.fits.of_cells ht
  host := hs.host
  cells := ht ▸ hs.cells

/-- A host may put a sequence into a new cell, for itself or for everyone. -/
theorem allocate {p : Producer} (hs : r.Orderly D F s) (hp : p.Alike (.of r.shared) p)
    (owner : Option Agent) (howner : ∀ g ∈ owner, g = .host ∧ s.cells.size ∈ F) :
    ∃ r', r ≤ r' ∧ r'.Orderly D F (s.allocate p).2 ∧ r'.Sees (.reading 0) s.cells.size s.cells.size ∧
      r'.owner s.cells.size = owner := by
  obtain ⟨r', hle, hsize, hsees, hown, hties⟩ := r.exists_add (.reading 0) owner r.size
  have heq := hs.fits.size
  have new {n : Nat} (hn : n < r'.size) (hne : ¬n < r.size) : n = r.size := by omega
  refine ⟨r', hle, ⟨fun n hn => ?_, ⟨?_, fun n g hn hg => ?_⟩, fun n hn hg => ?_, fun n hn => ?_⟩,
    heq ▸ hsees, heq ▸ hown⟩
  · by_cases hlt : n < r.size
    · exact (hle.2 n hlt).2.2.2.trans (hs.partner n hlt)
    · exact new hn hlt ▸ hsees.partner
  · simp [hsize, heq, Session.cells_allocate]
  · have hn := Session.failed_allocate.1 hn
    rw [(hle.2 n (heq ▸ hn.lt)).2.2.1] at hg
    exact (hs.fits.failed n g hn hg).imp_left fun hgone => hgone.imp fun _ =>
      Session.failed_allocate.2
  · by_cases hlt : n < r.size
    · exact hs.host n hlt ((hle.2 n hlt).2.2.1 ▸ hg)
    · cases new hn hlt
      exact heq ▸ (howner _ (hown.symm.trans hg)).2
  · by_cases hlt : n < r.size
    · obtain ⟨c, hc, halike⟩ := hs.cells n hlt
      refine ⟨c, ?_, halike.mono (Realm.ties_view_mono hle hlt)⟩
      simp [Session.cells_allocate, Array.getElem?_push, ← heq, Nat.ne_of_lt hlt, hc]
    · cases new hn hlt
      exact ⟨⟨#[], some p, none⟩, by simp [Session.cells_allocate, heq], .nil, .some (hp.mono hties), rfl⟩

end Realm.Orderly

/-- The world in which nothing has been drawn yet. -/
def World.of (s : Session) : World := ⟨fun n => s.cells[n]?.map .start⟩

/-- The world records all of a session that is in order. -/
structure Chronicle (h : Host) (w : World) (r : Realm) (D : Finset Nat) (F : Set Nat) (s : Session) :
    Prop where
  records : Records h w r s ∅
  fits : r.Fits s D ∅
  host : ∀ n < r.size, r.owner n = some .host → n ∈ F

theorem Realm.Orderly.chronicle (hs : r.Orderly D F s) : Chronicle h (.of s) r D F s where
  fits := hs.fits
  host := hs.host
  records := by
    refine ⟨hs.partner, fun n hn => ?_, fun n hn _ => ?_⟩
    · rw [hs.fits.size] at hn
      simp [World.of, hn]
    · obtain ⟨c, hc, halike⟩ := hs.cells n hn
      refine ⟨c, .start c, hc, by simp [World.of, hc], ?_, rfl, rfl, ?_, halike⟩
      · intro before d left _ _ hd _
        simp [Past.start] at hd
      · change Option.Rel (Resumes h _) c.source c.source
        cases c.source with
        | none => exact .none
        | some p => exact .some (.refl p)

/-- A session that has been recorded is in order. -/
theorem Chronicle.orderly (hs : Chronicle h w r D F s) : r.Orderly D F s where
  partner := hs.records.partner
  fits := hs.fits
  host := hs.host
  cells n hn := by
    obtain ⟨c, x, hc, -, -, hkeeps⟩ := hs.records.cells n hn (Set.notMem_empty n)
    exact ⟨c, hc, hkeeps.alike⟩

theorem Chronicle.of_cells (hs : Chronicle h w r D F s) (ht : t.cells = s.cells) :
    Chronicle h w r D F t :=
  ⟨hs.records.of_cells ht, hs.fits.of_cells ht, hs.host⟩

/-- More readings may be gone. -/
theorem Chronicle.gone {D' : Finset Nat} (hs : Chronicle h w r D F s) (hD : D ⊆ D') :
    Chronicle h w r D' F s := by
  refine ⟨hs.records, ⟨hs.fits.size, fun n g hn hg => ?_⟩, hs.host⟩
  refine (hs.fits.failed n g hn hg).imp_left fun hgone => ?_
  cases g with
  | reading k => exact hD hgone
  | host | cell n => exact hgone

/-- A reading that is not gone may go on. -/
theorem Realm.Fits.ready (hs : r.Fits s D ∅) (hk : k ∉ D) : Ready r s D ∅ (.reading k) where
  fits := hs
  live g hg hgone := by
    rcases hg with rfl | rfl
    · exact hk hgone
    · exact hgone
  busy n hn := absurd hn (Set.notMem_empty n)
  agent := nofun

/-- If an error ends a reading, the reading is gone. -/
theorem Passage.settle {failed : Prop} (h : Passage (.reading k) D ∅ failed r s r' t)
    (hhost : ∀ n, t.Failed n → r'.owner n ≠ some .host) :
    r'.Fits t (insert k D) ∅ ∧ (¬failed → r'.Fits t D ∅) := by
  refine ⟨⟨h.fits.size, fun n g hn hg => .inl ?_⟩, fun hf => h.fits.imp fun g hg => hf hg.1⟩
  rcases h.fits.failed n g hn hg with hgone | ⟨-, rfl | rfl⟩
  · cases g with
    | host => exact hgone
    | reading j => exact Finset.mem_insert_of_mem hgone
    | cell m => exact hgone
  · exact Finset.mem_insert_self k D
  · exact absurd hg (hhost n hn)

/-- The cells for the host are the same as before. -/
theorem Passage.host {v : View} {Δ : Set Nat} {failed : Prop} (h : Passage v D Δ failed r s r' t)
    {n : Nat} (hn : n < r'.size) (howner : r'.owner n = some .host) :
    n < r.size ∧ r.owner n = some .host ∧ r'.partner n = r.partner n := by
  have hlt : n < r.size := by
    by_contra hge
    exact h.fresh n hn (Nat.le_of_not_lt hge) howner
  obtain ⟨-, -, ho, hp⟩ := h.le.2 n hlt
  exact ⟨hlt, ho ▸ howner, hp⟩

/-- A turn of a reading is recorded. -/
theorem Chronicle.turn {p : Producer} (hs : Chronicle h w r D F s) (hk : k ∉ D)
    (hp : p.Alike (r.ties (.reading k)) p) (fuel : Nat)
    (hF : ∀ n ∈ F, ¬(next h fuel p s).session.Failed n) :
    ∃ w' r', w ≤ w' ∧ r ≤ r' ∧ Chronicle h w' r' (insert k D) F (next h fuel p s).session ∧
      (¬(next h fuel p s).Fails → Chronicle h w' r' D F (next h fuel p s).session) ∧
      (next h fuel p s).Retold h w' (r'.ties (.reading k)) p := by
  obtain ⟨w', r', ha, ht⟩ := next_recorded fuel p w r s ∅ _ hs.records (hs.fits.ready hk) hp
  have hhost (n : Nat) (hn : n < r'.size) (howner : r'.owner n = some .host) : n ∈ F := by
    obtain ⟨hlt, howner, -⟩ := ha.passage.host hn howner
    exact hs.host n hlt howner
  obtain ⟨hgone, hlive⟩ := ha.passage.settle fun n hn howner =>
    hF n (hhost n (ha.passage.fits.size ▸ hn.lt) howner) hn
  exact ⟨w', r', ha.le, ha.passage.le, ⟨ha.records, hgone, hhost⟩,
    fun hf => ⟨ha.records, hlive hf, hhost⟩, ht⟩

/-! ## Telling what has been read -/

/-- The items are retold of a producer one by one, and the rest goes on from there. -/
inductive Tells (h : Host) (w : World) : Producer → List Value → Producer → Prop
  | nil {p q} : Resumes h w q p → Tells h w p [] q
  | cons {p p' q v vs} : Retells h w p (.item v p') → Tells h w p' vs q → Tells h w p (v :: vs) q

namespace Tells

variable {p q q' : Producer} {vs : List Value} {v : Value}

theorem mono (hw : w ≤ w') (hp : Tells h w p vs q) : Tells h w' p vs q := by
  induction hp with
  | nil hq => exact .nil (hq.mono hw)
  | cons hd _ ih => exact .cons (hd.mono hw) ih

theorem resume (hp : Tells h w p vs q) (hq : Resumes h w q' q) : Tells h w p vs q' := by
  induction hp with
  | nil hr => exact .nil (hr.trans hq)
  | cons hd _ ih => exact .cons hd (ih hq)

theorem snoc (hp : Tells h w p vs q) (hd : Retells h w q (.item v q')) :
    Tells h w p (vs ++ [v]) q' := by
  induction hp with
  | nil hr => exact .cons (hr w le_rfl _ hd) (.nil (.refl q'))
  | cons hd' _ ih => exact .cons hd' (ih hd)

end Tells

/-! ## Following -/

/-- The session repeats what has been drawn in the world, so far as it goes; it is in order. -/
structure Follower (w : World) (r : Realm) (D : Finset Nat) (F : Set Nat) (s : Session) : Prop where
  agrees : Agrees w r s ∅
  fits : r.Fits s D ∅
  host : ∀ a < r.size, r.owner a = some .host → r.partner a ∈ F

theorem Agrees.mono {Δ : Set Nat} (hs : Agrees w r s Δ) (hw : w ≤ w') : Agrees w' r s Δ := by
  intro a ha hΔ
  obtain ⟨x, done, c, hx, hdone, hc, halike⟩ := hs a ha hΔ
  obtain ⟨y, hy, hfirst, hdraws⟩ := hw _ x hx
  refine ⟨y, done, c, hy, hdone.trans hdraws, hc, ?_⟩
  rwa [Past.state, hfirst]

/-- An error that a follower comes to has been drawn in the session that the world records. -/
theorem Chronicle.failed_of_catches {rs : Realm} {D' : Finset Nat} {a : Nat}
    (hs : Chronicle h w rs D' F s) (ha : Catches w r t a) (hf : t.Failed a) :
    s.Failed (r.partner a) := by
  obtain ⟨x, done, c, hx, hdone, hc, halike⟩ := ha
  obtain ⟨c', hc', he⟩ := hf
  cases hc.symm.trans hc'
  have herror : (x.state done).error ≠ none := halike.error ▸ he
  have hstill : ¬(x.state done).Live := by
    rintro ⟨items, p, hlive⟩
    rw [hlive] at herror
    exact herror rfl
  have hlt : r.partner a < rs.size := by
    by_contra hge
    cases hx.symm.trans (hs.records.fresh _ (Nat.le_of_not_lt hge))
  obtain ⟨c₀, y, hc₀, hy, -, hkeeps⟩ := hs.records.cells _ hlt (Set.notMem_empty _)
  cases hx.symm.trans hy
  rw [Past.eq_of_not_live hstill hdone (List.prefix_refl _)] at hkeeps
  exact ⟨c₀, hc₀, hkeeps.error ▸ herror⟩

namespace Follower

variable {rs : Realm} {D' : Finset Nat} {p p' q : Producer} {vs : List Value} {d : Draw}

theorem mono (ht : Follower w r D F t) (hw : w ≤ w') : Follower w' r D F t :=
  ⟨ht.agrees.mono hw, ht.fits, ht.host⟩

/-- What is retold in the world is drawn in a session that follows it. -/
theorem draws (hs : Chronicle h w rs D' F s) (hF : ∀ n ∈ F, ¬s.Failed n) (ht : Follower w r D F t)
    (hk : k ∉ D) (hq : q.Alike (r.ties (.reading k)) p) (hd : Retells h w p d) :
    ∃ d' r' u, Draws h q t d' u ∧ d'.Alike (r'.ties (.reading k)) d ∧ r ≤ r' ∧
      Follower w r' (insert k D) F u ∧ (¬d.Fails → Follower w r' D F u) := by
  obtain ⟨d', r', u, hdraws, halike, hagrees, hp⟩ :=
    hd.replays w le_rfl r t D ∅ _ ⟨ht.agrees, ht.fits.ready hk⟩ q hq
  have hhost (a : Nat) (ha : a < r'.size) (howner : r'.owner a = some .host) : r'.partner a ∈ F := by
    obtain ⟨hlt, howner, hpartner⟩ := hp.host ha howner
    exact hpartner ▸ ht.host a hlt howner
  obtain ⟨hgone, hlive⟩ := hp.settle fun a ha howner => by
    have hlt : a < r'.size := hp.fits.size ▸ ha.lt
    exact hF _ (hhost a hlt howner) (hs.failed_of_catches (hagrees a hlt (Set.notMem_empty a)) ha)
  exact ⟨d', r', u, hdraws, halike, hp.le, ⟨hagrees, hgone, hhost⟩,
    fun hf => ⟨hagrees, hlive hf, hhost⟩⟩

/-- What has been told of a reading is read at once in a session that follows. -/
theorem yields {e : Option Error} (hs : Chronicle h w rs D' F s) (hF : ∀ n ∈ F, ¬s.Failed n)
    (ht : Follower w r D F t) (hk : k ∉ D) (hq : q.Alike (r.ties (.reading k)) p)
    (hp : Tells h w p vs p') (he : Retells h w p' (.ending e)) :
    ∃ vs' r' u, Yields h q t vs' e u ∧ r ≤ r' ∧
      List.Forall₂ (Value.Alike (r'.shared .known)) vs' vs ∧ Follower w r' (insert k D) F u := by
  induction hp generalizing q r t with
  | nil hr =>
    obtain ⟨d', r', u, hd, halike, hle, hu, -⟩ := ht.draws hs hF hk hq (hr w le_rfl _ he)
    cases e with
    | none =>
      cases halike
      exact ⟨[], r', u, .finish hd, hle, .nil, hu⟩
    | some e =>
      cases halike
      exact ⟨[], r', u, .failed hd, hle, .nil, hu⟩
  | cons hd _ ih =>
    obtain ⟨d', r', u, hd, halike, hle, -, hu⟩ := ht.draws hs hF hk hq hd
    cases halike with
    | item hv hq' =>
    obtain ⟨vs', r'', u', hy, hle', hvs, hu'⟩ := ih (hu id) hq' he
    have hv : Value.Alike (r'.scope (.reading k) .known) _ _ := hv
    rw [r'.scope_reading] at hv
    have hv := hv.mono (Realm.scope_mono hle' _ .known)
    exact ⟨_, r'', u', .item hd hy, hle.trans hle', .cons hv hvs, hu'⟩

end Follower

end XPath
