import Mathlib.Data.List.Induction
import XPath.Proofs.Lazy.Drawing
import XPath.Proofs.Lazy.LikeProducers
import XPath.Proofs.Lazy.Realms
import XPath.Proofs.Library.Replies

/-!
# Replaying what has been drawn

A world keeps, for every cell, how it was first found and what has been drawn from its source since. A
session may be behind: a replica of the world holds cells that are like those of the world as they were
at some earlier time. What has been drawn in the world can be drawn again in every replica, whatever it
has drawn already (`Replays`): where a cell is behind, the draws that it lacks are replayed.

`Retells` follows the machine rule by rule over a world, and a draw that is retold can be replayed
(`Retells.replays`).
-/

namespace XPath

open Producer

variable {h : Host}

/-! ## Worlds -/

/-- The cell after a draw from its source. -/
def Cell.after (c : Cell) : Draw → Cell
  | .item v p => ⟨c.items.push v, some p, none⟩
  | .finish => ⟨c.items, none, none⟩
  | .failed e => ⟨c.items, none, some e⟩

/-- There is something left to compute. -/
def Cell.Live (c : Cell) : Prop := ∃ items p, c = ⟨items, some p, none⟩

/-- How a cell was first found, and what has been drawn from its source since. -/
structure Past where
  first : Cell
  draws : List Draw
  live : ∀ done d left, draws = done ++ d :: left → (done.foldl Cell.after first).Live

namespace Past

/-- The cell after some of the draws. -/
def state (x : Past) (done : List Draw) : Cell := done.foldl Cell.after x.first

def start (c : Cell) : Past := ⟨c, [], fun _ _ _ h => by simp at h⟩

/-- One more draw. -/
def add (x : Past) (d : Draw) (hx : (x.state x.draws).Live) : Past where
  first := x.first
  draws := x.draws ++ [d]
  live done d' left h := by
    rcases left.eq_nil_or_concat with rfl | ⟨left, d'', rfl⟩
    · obtain ⟨rfl, -⟩ := List.append_inj' h rfl
      exact hx
    · rw [List.concat_eq_append, ← List.cons_append, ← List.append_assoc] at h
      exact x.live done d' left (List.append_inj' h rfl).1

theorem state_snoc (x : Past) (done : List Draw) (d : Draw) :
    x.state (done ++ [d]) = (x.state done).after d := by
  simp only [state, List.foldl_append, List.foldl_cons, List.foldl_nil]

/-- What is drawn is drawn from what is left to compute. -/
theorem live_of_initial {x : Past} {done left : List Draw} {d : Draw}
    (hp : done ++ d :: left <+: x.draws) : (x.state done).Live := by
  obtain ⟨rest, hrest⟩ := hp
  exact x.live done d (left ++ rest) (by rw [← hrest]; simp)

/-- Items that have been drawn stay. -/
theorem items_of_initial {x : Past} {done done' : List Draw} (hp : done <+: done') {i : Nat} {v : Value}
    (hi : (x.state done).items[i]? = some v) : (x.state done').items[i]? = some v := by
  obtain ⟨left, rfl⟩ := hp
  induction left using List.reverseRecOn with
  | nil => rwa [List.append_nil]
  | append_singleton left d ih =>
    rw [← List.append_assoc, state_snoc]
    cases d with
    | item u q =>
      obtain ⟨hlt, -⟩ := Array.getElem?_eq_some_iff.1 ih
      simpa [Cell.after, Array.getElem?_push, Nat.ne_of_lt hlt] using ih
    | finish | failed => exact ih

/-- Nothing is drawn when there is nothing left to compute. -/
theorem eq_of_not_live {x : Past} {done done' : List Draw} (hdone : ¬(x.state done).Live)
    (hp : done <+: done') (hp' : done' <+: x.draws) : done' = done := by
  obtain ⟨left, rfl⟩ := hp
  cases left with
  | nil => exact List.append_nil _
  | cons d left => exact absurd (live_of_initial hp') hdone

end Past

/-- The past of every cell that there is. -/
structure World where
  past : Nat → Option Past

namespace World

/-- More may have been drawn, and there may be more cells. -/
instance : Preorder World where
  le w w' := ∀ n x, w.past n = some x →
    ∃ x', w'.past n = some x' ∧ x'.first = x.first ∧ x.draws <+: x'.draws
  le_refl w n x hx := ⟨x, hx, rfl, List.prefix_refl _⟩
  le_trans w w' w'' h h' n x hx := by
    obtain ⟨x', hx', hfirst, hdraws⟩ := h n x hx
    obtain ⟨x'', hx'', hfirst', hdraws'⟩ := h' n x' hx'
    exact ⟨x'', hx'', hfirst'.trans hfirst, hdraws.trans hdraws'⟩

/-- The past of one cell is set. -/
def set (w : World) (n : Nat) (x : Past) : World := ⟨Function.update w.past n (some x)⟩

variable {w : World} {n m : Nat} {x y : Past}

@[simp] theorem past_set_self : (w.set n x).past n = some x := Function.update_self ..

theorem past_set_of_ne (hm : m ≠ n) : (w.set n x).past m = w.past m := Function.update_of_ne hm ..

theorem le_set_of_none (hn : w.past n = none) : w ≤ w.set n x := by
  intro m y hy
  have hm : m ≠ n := by
    rintro rfl
    cases hn.symm.trans hy
  exact ⟨y, (past_set_of_ne hm).trans hy, rfl, List.prefix_refl _⟩

theorem le_set_add (hn : w.past n = some x) {d : Draw} (hx : (x.state x.draws).Live) :
    w ≤ w.set n (x.add d hx) := by
  intro m y hy
  by_cases hm : m = n
  · subst hm
    cases hn.symm.trans hy
    exact ⟨_, past_set_self, rfl, List.prefix_append ..⟩
  · exact ⟨y, (past_set_of_ne hm).trans hy, rfl, List.prefix_refl _⟩

end World

/-! ## Likeness of cells and draws -/

/-- The cells have like items and are alike in what is left to compute. -/
structure Cell.Alike (τ : Ties) (c c' : Cell) : Prop where
  items : List.Forall₂ (Value.Alike (τ.scope .known)) c.items.toList c'.items.toList
  source : Option.Rel (Producer.Alike τ) c.source c'.source
  error : c.error = c'.error

/-- Like items are drawn and like producers are left, or the outcome is the same. -/
inductive Draw.Alike (τ : Ties) : Draw → Draw → Prop
  | item {v v' p p'} : v.Alike (τ.scope .known) v' → p.Alike τ p' →
      Draw.Alike τ (.item v p) (.item v' p')
  | finish : Draw.Alike τ .finish .finish
  | failed {e} : Draw.Alike τ (.failed e) (.failed e)

section

variable {τ τ' : Ties} {c c' : Cell} {d d' : Draw}

theorem Cell.Alike.mono (hτ : τ ≤ τ') (hc : c.Alike τ c') : c.Alike τ' c' where
  items := hc.items.imp fun _ _ h => h.mono (hτ.1 .known)
  source := hc.source.imp fun _ _ h => h.mono hτ
  error := hc.error

theorem Cell.Alike.getElem? (hc : c.Alike τ c') (i : Nat) :
    Option.Rel (Value.Alike (τ.scope .known)) c.items[i]? c'.items[i]? := by
  rw [← Array.getElem?_toList, ← Array.getElem?_toList]
  exact hc.items.getElem? i

theorem Draw.Alike.fails (hd : d.Alike τ d') : d.Fails = d'.Fails := by cases hd <;> rfl

/-- Like draws leave like cells. -/
theorem Cell.Alike.after (hc : c.Alike τ c') (hd : d.Alike τ d') : (c.after d).Alike τ (c'.after d') := by
  cases hd with
  | item hv hp =>
    refine ⟨?_, .some hp, rfl⟩
    simp only [Cell.after, Array.toList_push]
    exact List.rel_append hc.items (.cons hv .nil)
  | finish => exact ⟨hc.items, .none, rfl⟩
  | failed => exact ⟨hc.items, .none, rfl⟩

end

/-- A draw is put into the cell that it has been drawn from. -/
theorem Session.cells_absorb_self {s : Session} {n : Nat} {items : Array Value} {p : Producer}
    (d : Draw) (hn : s.cells[n]? = some ⟨items, none, none⟩) :
    (s.absorb n d).cells[n]? = some ((⟨items, some p, none⟩ : Cell).after d) := by
  cases d <;> simp [absorb, cells_keep, cells_spoil, Array.getElem?_modify, hn, Cell.after]

/-! ## Replicas -/

variable {w w' w'' : World} {r r' r'' : Realm} {s t u : Session} {D : Finset Nat} {Δ : Set Nat}
  {v : View}

/-- A cell of the session is like the one that it stands for in the world, as that was after some of
the draws. -/
def Catches (w : World) (r : Realm) (s : Session) (a : Nat) : Prop :=
  ∃ x done c, w.past (r.partner a) = some x ∧ done <+: x.draws ∧ s.cells[a]? = some c ∧
    c.Alike (r.ties (r.view a)) (x.state done)

/-- Every cell that is not being computed is like one of the world at some time. -/
def Agrees (w : World) (r : Realm) (s : Session) (Δ : Set Nat) : Prop :=
  ∀ a < r.size, a ∉ Δ → Catches w r s a

/-- The session repeats what has been drawn in the world, so far as it goes, and is ready for a
computation with the view. -/
structure Replica (w : World) (r : Realm) (s : Session) (D : Finset Nat) (Δ : Set Nat) (v : View) :
    Prop where
  agrees : Agrees w r s Δ
  ready : Ready r s D Δ v

theorem Catches.congr {a : Nat} (ha : s.cells[a]? = t.cells[a]?) (hs : Catches w r s a) :
    Catches w r t a := by
  obtain ⟨x, done, c, hx, hdone, hc, halike⟩ := hs
  exact ⟨x, done, c, hx, hdone, ha ▸ hc, halike⟩

theorem Catches.grow {a : Nat} (hr : r ≤ r') (ha : a < r.size) (hs : Catches w r s a) :
    Catches w r' s a := by
  obtain ⟨x, done, c, hx, hdone, hc, halike⟩ := hs
  rw [← (hr.2 a ha).2.2.2] at hx
  exact ⟨x, done, c, hx, hdone, hc, halike.mono (Realm.ties_view_mono hr ha)⟩

theorem Agrees.of_cells (hs : Agrees w r s Δ) (ht : t.cells = s.cells) : Agrees w r t Δ :=
  fun a ha hΔ => (hs a ha hΔ).congr (by rw [ht])

namespace Replica

theorem after (hs : Replica w r s D Δ v) (hp : Passage v D Δ False r s r' t)
    (ht : Agrees w r' t Δ) : Replica w r' t D Δ v := ⟨ht, hs.ready.after hp⟩

theorem sourced (hs : Replica w r s D Δ v) (b : Bool) : Replica w r s D Δ (v.sourced b) :=
  ⟨hs.agrees, hs.ready.sourced b⟩

/-- The source of a cell is taken out to be computed. -/
theorem enter {a b : Nat} (hs : Replica w r s D Δ v) (ha : r.Sees v a b) (hf : ¬s.Failed a) :
    Replica w r (s.detach a) D (insert a Δ) (r.view a) where
  agrees c hc hΔ := by
    rw [Set.mem_insert_iff, not_or] at hΔ
    exact (hs.agrees c hc hΔ.2).congr (Session.cells_detach_of_ne hΔ.1).symm
  ready := hs.ready.enter ha hf

end Replica

/-- From the session, the producer comes to a draw like the given one. -/
def Comes (h : Host) (w : World) (r : Realm) (s : Session) (D : Finset Nat) (Δ : Set Nat) (v : View)
    (q : Producer) (d : Draw) : Prop :=
  ∃ d' r' t, Draws h q s d' t ∧ d'.Alike (r'.ties v) d ∧ Agrees w r' t Δ ∧
    Passage v D Δ d.Fails r s r' t

/-- In every replica of the world or of a later one, whatever is like the producer comes to a draw like
the given one. -/
def Replays (h : Host) (w : World) (p : Producer) (d : Draw) : Prop :=
  ∀ w', w ≤ w' → ∀ r s D Δ v, Replica w' r s D Δ v → ∀ q : Producer, q.Alike (r.ties v) p →
    Comes h w' r s D Δ v q d

theorem Replays.mono {p : Producer} {d : Draw} (hw : w ≤ w') (hp : Replays h w p d) :
    Replays h w' p d := fun w'' hw' => hp w'' (hw.trans hw')

namespace Comes

variable {p q q' : Producer} {d : Draw}

/-- After some steps the producer goes on as another one does. -/
theorem onward (hq : Comes h w r' t D Δ v q' d) (hp : Passage v D Δ False r s r' t)
    (hd : ∀ {d' u}, Draws h q' t d' u → Draws h q s d' u) : Comes h w r s D Δ v q d := by
  obtain ⟨d', r'', u, hdraws, halike, hagrees, hp'⟩ := hq
  exact ⟨d', r'', u, hd hdraws, halike, hagrees, hp.trans hp'⟩

/-- The producer goes on at once as another one does. -/
theorem step (hs : Replica w r s D Δ v) (ht : t.cells = s.cells)
    (hq : Replica w r t D Δ v → Comes h w r t D Δ v q' d)
    (hd : ∀ {d' u}, Draws h q' t d' u → Draws h q s d' u) : Comes h w r s D Δ v q d := by
  have hp : Passage v D Δ False r s r t := .of_cells hs.ready ht
  exact (hq (hs.after hp (hs.agrees.of_cells ht))).onward hp hd

/-- The draw is there at once. -/
theorem here {d' : Draw} (hs : Replica w r s D Δ v) (hd : Draws h q s d' s)
    (halike : d'.Alike (r.ties v) d) : Comes h w r s D Δ v q d :=
  ⟨d', r, s, hd, halike, hs.agrees, .refl hs.ready⟩

end Comes

/-! ## What cells show -/

/-- What the cell has at an index, if that has been computed. -/
inductive Cell.Shows (c : Cell) (i : Nat) : Except Error (Option Value) → Prop
  | item {u : Value} : c.items[i]? = some u → Cell.Shows c i (.ok (some u))
  | finish : c.items[i]? = none → c.source = none → c.error = none → Cell.Shows c i (.ok none)
  | failed {e : Error} : c.items[i]? = none → c.error = some e → Cell.Shows c i (.error e)

/-- Some of the draws of a past can be replayed. -/
def Past.Replayed (h : Host) (w : World) (x : Past) (done : List Draw) : Prop :=
  ∀ before d left items p, done = before ++ d :: left → x.state before = ⟨items, some p, none⟩ →
    Replays h w p d

/-- What a cell of the world has at an index, and it can be replayed. -/
def World.Shows (h : Host) (w : World) (n i : Nat) (found : Except Error (Option Value)) : Prop :=
  ∃ x done, w.past n = some x ∧ done <+: x.draws ∧ x.Replayed h w done ∧ (x.state done).Shows i found

theorem World.Shows.mono {n i : Nat} {found : Except Error (Option Value)} (hw : w ≤ w')
    (hn : w.Shows h n i found) : w'.Shows h n i found := by
  obtain ⟨x, done, hx, hdone, hreplayed, hshows⟩ := hn
  obtain ⟨x', hx', hfirst, hdraws⟩ := hw n x hx
  have hstate (done : List Draw) : x'.state done = x.state done := by
    rw [Past.state, Past.state, hfirst]
  refine ⟨x', done, hx', hdone.trans hdraws, ?_, hstate done ▸ hshows⟩
  intro before d left items p hd hp
  exact (hreplayed before d left items p hd (hstate before ▸ hp)).mono hw

/-- What a cell shows stays. -/
theorem Past.shows_of_initial {x : Past} {done done' : List Draw} {i : Nat}
    {found : Except Error (Option Value)} (hs : (x.state done).Shows i found) (hp : done <+: done')
    (hp' : done' <+: x.draws) : (x.state done').Shows i found := by
  cases hs with
  | item hi => exact .item (items_of_initial hp hi)
  | finish hi hsource herror =>
    have hlive : ¬(x.state done).Live := by
      rintro ⟨items, p, hx⟩
      rw [hx] at hsource
      cases hsource
    rw [eq_of_not_live hlive hp hp']
    exact .finish hi hsource herror
  | failed hi herror =>
    have hlive : ¬(x.state done).Live := by
      rintro ⟨items, p, hx⟩
      rw [hx] at herror
      cases herror
    rw [eq_of_not_live hlive hp hp']
    exact .failed hi herror

theorem Cell.Shows.unique {c : Cell} {i : Nat} {found found' : Except Error (Option Value)}
    (hs : c.Shows i found) (hs' : c.Shows i found') : found = found' := by
  cases hs <;> cases hs' <;> simp_all

/-! ## Reading a cell of a replica -/

/-- What a reader goes on with comes to the draw, or the draw is the error that the reader finds. -/
def Meets (h : Host) (w : World) (r : Realm) (D : Finset Nat) (Δ : Set Nat) (v : View)
    (k : Option Value → Producer) (d : Draw) : Except Error (Option Value) → Prop
  | .ok x => ∀ r' t, r ≤ r' → Replica w r' t D Δ v →
      ∀ y, Option.Rel (Value.Alike (r'.scope v .known)) y x → Comes h w r' t D Δ v (k y) d
  | .error e => d = .failed e

namespace Replica

variable {a b i : Nat} {c : Cell} {x : Past} {k : Option Value → Producer} {d : Draw}
  {found : Except Error (Option Value)} {done left : List Draw}

/-- A cell that has caught up is looked at. -/
theorem fetch_shown (hs : Replica w r s D Δ v) (ha : r.Reads v a b) (hc : s.cells[a]? = some c)
    (halike : c.Alike (r.ties (r.view a)) (x.state done)) (hshows : (x.state done).Shows i found)
    (hk : Meets h w r D Δ v k d found) : Comes h w r s D Δ v (.fetch (.cell a) i k) d := by
  have hi := halike.getElem? i
  have herror := halike.error
  have hsource := halike.source
  cases hshows with
  | item hu =>
    rw [hu] at hi
    generalize hy : c.items[i]? = y at hi
    cases hi with
    | @some y' _ hy' =>
      have hl : s.look (.cell a) i = .item y' := by simp only [Session.look, hc, hy]
      refine .step hs rfl (fun hs => hk r s le_rfl hs _ (.some ?_)) (.fetch_item hl)
      exact hy'.mono (Realm.scope_view_le ha.1 .known)
  | finish hn hp he =>
    rw [hn] at hi
    rw [hp] at hsource
    rw [he] at herror
    obtain ⟨items, source, error⟩ := c
    dsimp only at hi hsource herror
    generalize hy : items[i]? = y at hi
    cases hi
    cases hsource
    have hl : s.look (.cell a) i = .finish := by simp only [Session.look, hc, hy, herror]
    exact .step hs rfl (fun hs => hk r s le_rfl hs none .none) (.fetch_finish hl)
  | @failed e hn he =>
    rw [hn] at hi
    rw [he] at herror
    generalize hy : c.items[i]? = y at hi
    cases hi
    have hl : s.look (.cell a) i = .failed e := by simp only [Session.look, hc, hy, herror]
    rw [show d = .failed e from hk]
    exact .here hs (.fetch_failed hl) .failed

/-- The next draw from the source of a cell that is behind is replayed. -/
theorem catch_up {items items' : Array Value} {p q : Producer} {d₀ : Draw}
    (hs : Replica w r s D Δ v) (ha : r.Reads v a b) (hx : w.past b = some x)
    (hdraws : done ++ [d₀] <+: x.draws) (hp : Replays h w p d₀)
    (hlive : x.state done = ⟨items, some p, none⟩) (hc : s.cells[a]? = some ⟨items', some q, none⟩)
    (halike : Cell.Alike (r.ties (r.view a)) ⟨items', some q, none⟩ (x.state done)) :
    ∃ d' r' t c', Draws h q (s.detach a) d' t ∧ d'.Alike (r'.ties (r'.view a)) d₀ ∧
      Passage v D Δ d₀.Fails r s r' (t.absorb a d') ∧ Agrees w r' (t.absorb a d') Δ ∧
      (t.absorb a d').cells[a]? = some c' ∧ c'.Alike (r'.ties (r'.view a)) (x.state (done ++ [d₀])) := by
  have hsound : ¬s.Failed a := by
    rintro ⟨c, hc', he⟩
    cases hc.symm.trans hc'
    exact he rfl
  rw [hlive] at halike
  have hsource := halike.source
  cases hsource with
  | some hq =>
  obtain ⟨d', r', t, hdraws', hd', hagrees, hpassage⟩ :=
    hp w le_rfl r _ _ _ _ (hs.enter ha.1 hsound) q hq
  rw [← Realm.view_eq hpassage.le ha.1.lt] at hd'
  have hidle : t.cells[a]? = some ⟨items', none, none⟩ := by
    rw [hpassage.same a (Set.mem_insert ..)]
    exact (Session.idle_detach hc).1
  have hcell := Session.cells_absorb_self (p := q) d' hidle
  have halike' := (halike.mono (Realm.ties_view_mono hpassage.le ha.1.lt)).after hd'
  rw [← hlive, ← Past.state_snoc] at halike'
  have hcatch : Catches w r' (t.absorb a d') a := by
    refine ⟨x, _, _, ?_, hdraws, hcell, halike'⟩
    rw [(hpassage.le.2 a ha.1.lt).2.2.2, ha.1.partner, hx]
  refine ⟨d', r', t, _, hdraws', hd', ?_, fun c hc' hΔ => ?_, hcell, halike'⟩
  · rw [← hd'.fails] at hpassage ⊢
    exact hpassage.leave hs.ready ha
  · by_cases hca : c = a
    · rw [hca]
      exact hcatch
    · have hmem : c ∉ insert a Δ := by
        rintro (h | h)
        · exact hca h
        · exact hΔ h
      exact (hagrees c hc' hmem).congr (Session.cells_absorb hca).symm

/-- A cell that is behind catches up until it shows what is shown in the world. -/
theorem fetch_behind (hs : Replica w r s D Δ v) (ha : r.Reads v a b) (hx : w.past b = some x)
    (hdraws : done ++ left <+: x.draws) (hreplayed : x.Replayed h w (done ++ left))
    (hc : s.cells[a]? = some c) (halike : c.Alike (r.ties (r.view a)) (x.state done))
    (hshows : (x.state (done ++ left)).Shows i found) (hk : Meets h w r D Δ v k d found) :
    Comes h w r s D Δ v (.fetch (.cell a) i k) d := by
  induction left generalizing r s c done with
  | nil =>
    rw [List.append_nil] at hshows
    exact hs.fetch_shown ha hc halike hshows hk
  | cons d₀ left ih =>
    obtain ⟨items, p, hlive⟩ := Past.live_of_initial hdraws
    have hnext : done ++ [d₀] <+: done ++ d₀ :: left := ⟨left, by simp⟩
    have stays {found' : Except Error (Option Value)} {before : List Draw}
        (hbefore : before <+: done ++ d₀ :: left) (h' : (x.state before).Shows i found') :
        found = found' := hshows.unique (Past.shows_of_initial h' hbefore hdraws)
    obtain ⟨items', source, error⟩ := c
    have hi := halike.getElem? i
    have herror := halike.error
    have hsource := halike.source
    rw [hlive] at herror hsource
    dsimp only at hi herror hsource
    subst herror
    cases hsource with
    | @some q _ hq =>
    cases hy : items'[i]? with
    | some y =>
      rw [hy] at hi
      generalize hu : (x.state done).items[i]? = u at hi
      cases hi with
      | some _ =>
        have hshows' : (x.state done).Shows i _ := .item hu
        rw [stays (List.prefix_append ..) hshows'] at hk
        exact hs.fetch_shown ha hc halike hshows' hk
    | none =>
      have hl : s.look (.cell a) i = .unread a q :=
        Session.look_eq_unread.2 ⟨rfl, items', hc, hy⟩
      rw [hy] at hi
      have hnone : (x.state done).items[i]? = none := by
        generalize (x.state done).items[i]? = u at hi
        cases hi
        rfl
      have hp := hreplayed done d₀ left items p rfl hlive
      obtain ⟨d', r', t, c', hq', hd', hpassage, hagrees, hc', halike'⟩ :=
        hs.catch_up ha hx (hnext.trans hdraws) hp hlive hc halike
      have ha' : r'.Reads v a b := by
        refine ⟨ha.1.mono hpassage.le, fun g hg => ha.2 g ?_⟩
        rwa [← (hpassage.le.2 a ha.1.lt).2.2.1]
      cases hd' with
      | item =>
        have hs' := hs.after hpassage hagrees
        have hk' : Meets h w r' D Δ v k d found := by
          cases found with
          | ok x => exact fun r'' t hr => hk r'' t (hpassage.le.trans hr)
          | error e => exact hk
        refine (ih hs' ha' ?_ ?_ hc' halike' ?_ hk').onward hpassage (.unread_item hl hq')
        all_goals simpa using ‹_›
      | finish =>
        have hshows' : (x.state (done ++ [.finish])).Shows i (.ok none) := by
          rw [Past.state_snoc]
          exact .finish hnone rfl (by rw [hlive]; rfl)
        rw [stays hnext hshows'] at hk
        have hs' := hs.after hpassage hagrees
        exact (hk r' t hpassage.le hs' none .none).onward hpassage (.unread_finish hl hq')
      | @failed e =>
        have hshows' : (x.state (done ++ [.failed e])).Shows i (.error e) := by
          rw [Past.state_snoc]
          exact .failed hnone rfl
        rw [stays hnext hshows'] at hk
        rw [show d = .failed e from hk]
        exact ⟨_, r', _, .unread_failed hl hq', .failed, hagrees, hpassage⟩

/-- A cell is read as it is in the world, after it has caught up if it is behind. -/
theorem fetch (hs : Replica w r s D Δ v) (ha : r.Reads v a b) (hshows : w.Shows h b i found)
    (hk : Meets h w r D Δ v k d found) : Comes h w r s D Δ v (.fetch (.cell a) i k) d := by
  obtain ⟨x, shown, hx, hshown, hreplayed, hshows⟩ := hshows
  obtain ⟨y, done, c, hy, hdone, hc, halike⟩ :=
    hs.agrees a ha.1.lt (hs.ready.not_mem ha.1)
  rw [ha.1.partner] at hy
  cases hx.symm.trans hy
  rcases List.prefix_or_prefix_of_prefix hdone hshown with ⟨left, rfl⟩ | hle
  · exact hs.fetch_behind ha hx hshown hreplayed hc halike hshows hk
  · exact hs.fetch_shown ha hc halike (Past.shows_of_initial hshows hle hdone) hk

end Replica

end XPath
