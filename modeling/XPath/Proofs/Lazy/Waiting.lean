import XPath.Proofs.Lazy.Drawing

/-!
# Waiting

A turn of the machine says something about drawing without waiting (`Producer.sound_next`): its
answer is what is drawn, and what a suspended turn leaves behind goes on as the producer would have
done. The session of a turn and that of a drawing differ in what they note of the host alone, which
`Session.calm` forgets. A reader that suspends inside a cell puts the source back, and no cell is
touched while it is being computed (`Producer.idle_next`), so the reader finds it there again.
-/

namespace XPath

/-! ## Sessions without a host -/

namespace Session

/-- The session without what it notes of the host. -/
def calm (s : Session) : Session := { s with answered := [], awaited := [], suspensions := 0 }

variable (s : Session)

@[simp] theorem calm_calm : s.calm.calm = s.calm := rfl
@[simp] theorem calm_await (t : Option Topic) : (s.await t).calm = s.calm := rfl
@[simp] theorem calm_receive (q : Query) : (s.receive q).calm = s.calm := rfl
@[simp] theorem calm_tick : s.tick.calm = s.calm.tick := rfl
@[simp] theorem calm_report (l i : String) : (s.report l i).calm = s.calm.report l i := rfl
@[simp] theorem calm_detach (i : Nat) : (s.detach i).calm = s.calm.detach i := rfl

@[simp] theorem calm_keep (i : Nat) (v : Value) (p : Producer) :
    (s.keep i v p).calm = s.calm.keep i v p := rfl

@[simp] theorem calm_spoil (i : Nat) (e : Error) : (s.spoil i e).calm = s.calm.spoil i e := rfl

@[simp] theorem calm_allocate (p : Producer) :
    (s.allocate p).2.calm = (s.calm.allocate p).2 := rfl

@[simp] theorem allocate_calm (p : Producer) : (s.calm.allocate p).1 = (s.allocate p).1 := rfl
@[simp] theorem look_calm (x : Shared) (i : Nat) : s.calm.look x i = s.look x i := rfl
@[simp] theorem length?_calm (x : Shared) : s.calm.length? x = s.length? x := rfl

/-! ### Cells that are being computed -/

@[simp] theorem cells_calm : s.calm.cells = s.cells := rfl
@[simp] theorem cells_await (t : Option Topic) : (s.await t).cells = s.cells := rfl

theorem ask_prompt {h : Host} {q : Query} (hr : s.remaining h q = 0) :
    s.ask h q = (.ofExcept (h.answer q), s.receive q) := by
  simp [ask, hr]

theorem ask_late {h : Host} {q : Query} (hr : 0 < s.remaining h q) :
    s.ask h q = (.pending (some q.topic), { s with suspensions := s.suspensions + 1 }) := by
  simp [ask, hr]

theorem cells_ask (h : Host) (q : Query) : (s.ask h q).2.cells = s.cells := by
  unfold ask
  split <;> rfl

theorem cells_detach (i : Nat) :
    (s.detach i).cells = s.cells.modify i ({ · with source := none }) := rfl

theorem cells_attach (i : Nat) (p : Producer) :
    (s.attach i p).cells = s.cells.modify i ({ · with source := some p }) := rfl

theorem cells_keep (i : Nat) (v : Value) (p : Producer) :
    (s.keep i v p).cells =
      s.cells.modify i fun c => { c with items := c.items.push v, source := some p } := rfl

theorem cells_spoil (i : Nat) (e : Error) :
    (s.spoil i e).cells = s.cells.modify i ({ · with error := some e }) := rfl

theorem cells_allocate (p : Producer) :
    (s.allocate p).2.cells = s.cells.push ⟨#[], some p, none⟩ := rfl

variable {s}

theorem look_eq_unread {shared : Shared} {i cell : Nat} {source : Producer} :
    s.look shared i = .unread cell source ↔ shared = .cell cell ∧
      ∃ items, s.cells[cell]? = some ⟨items, some source, none⟩ ∧ items[i]? = none := by
  cases shared with
  | listed items => simp only [look]; split <;> simp
  | cell id =>
    rw [look, Shared.cell.injEq]
    constructor
    · rcases hc : s.cells[id]? with _ | ⟨items, p, e⟩
      · simp
      · rcases hi : items[i]? with _ | v <;> rcases e with _ | e <;> rcases p with _ | p <;>
          simp only [hi, reduceCtorEq, Lookup.unread.injEq, false_imp_iff]
        rintro ⟨rfl, rfl⟩
        exact ⟨rfl, items, hc, hi⟩
    · rintro ⟨rfl, items, hc, hi⟩
      simp [hc, hi]

/-- The cell is being computed, or there is nothing left of it to compute. -/
def Idle (s : Session) (i : Nat) (c : Cell) : Prop := s.cells[i]? = some c ∧ c.source = none

theorem idle_detach {cell : Nat} {items : Array Value} {source : Producer}
    (hc : s.cells[cell]? = some ⟨items, some source, none⟩) :
    (s.detach cell).Idle cell ⟨items, none, none⟩ := by
  simp [Idle, cells_detach, Array.getElem?_modify, hc]

/-- What is put back is taken out again. -/
theorem detach_attach {cell : Nat} {c : Cell} (hc : s.Idle cell c) (p : Producer) :
    (s.attach cell p).detach cell = s := by
  have cells : ((s.attach cell p).detach cell).cells = s.cells := by
    rw [cells_detach, cells_attach]
    apply Array.ext_getElem?
    intro j
    by_cases hj : cell = j
    · obtain ⟨hs, hn⟩ := hc
      cases c
      simp_all [Array.getElem?_modify]
    · simp [Array.getElem?_modify, hj]
  change { s with cells := ((s.attach cell p).detach cell).cells } = s
  rw [cells]

namespace Idle

variable {i : Nat} {c : Cell}

theorem ne_of_source (hi : s.Idle i c) {j : Nat} {items : Array Value} {source : Producer}
    (hj : s.cells[j]? = some ⟨items, some source, none⟩) : j ≠ i := by
  rintro rfl
  obtain ⟨hs, hn⟩ := hi
  simp_all

theorem modify (hi : s.Idle i c) {t : Session} {j : Nat} {f : Cell → Cell} (hj : j ≠ i)
    (ht : t.cells = s.cells.modify j f) : t.Idle i c :=
  ⟨by simp [ht, Array.getElem?_modify, hj, hi.1], hi.2⟩

theorem allocate (hi : s.Idle i c) (p : Producer) : (s.allocate p).2.Idle i c := by
  have : i < s.cells.size := (Array.getElem?_eq_some_iff.1 hi.1).choose
  exact ⟨by simp [cells_allocate, Array.getElem?_push, hi.1, Nat.ne_of_lt this], hi.2⟩

theorem of_cells (hi : s.Idle i c) {t : Session} (ht : t.cells = s.cells) : t.Idle i c :=
  ⟨ht ▸ hi.1, hi.2⟩

end Idle

end Session

/-- What holds of the session of a turn and is kept by going on holds in the end. -/
theorem Turn.andThen_session {P : Session → Prop} {t : Turn} {around : Producer → Producer}
    {item : Value → Producer → Session → Turn} {finish : Session → Turn} (ht : P t.session)
    (hitem : ∀ v r s, P s → P (item v r s).session) (hfinish : ∀ s, P s → P (finish s).session) :
    P (t.andThen around item finish).session := by
  unfold andThen
  split
  · exact hitem _ _ _ ht
  · exact hfinish _ ht
  all_goals exact ht

namespace Producer

variable {h : Host}

/-- No cell is touched while it is being computed. -/
theorem idle_next {i : Nat} {c : Cell} (fuel : Nat) (p : Producer) (s : Session)
    (hi : s.Idle i c) : (next h fuel p s).session.Idle i c := by
  induction fuel generalizing p s with
  | zero => exact hi
  | succ fuel ih =>
    cases p with
    | done | fail | emit | pause => exact hi
    | append first second =>
      exact Turn.andThen_session (P := fun s => s.Idle i c) (ih _ _ hi) (fun _ _ _ hs => hs)
        fun _ hs => ih _ _ hs
    | ask q k =>
      have := hi.of_cells (Session.cells_ask s h q)
      simp only [next]
      rcases hask : s.ask h q with ⟨_ | _ | _ | _, t⟩ <;> rw [hask] at this
      · exact ih _ _ this
      all_goals exact this
    | fetch shared j k =>
      simp only [next]
      split
      · exact ih _ _ hi
      · exact ih _ _ hi
      · exact hi
      next cell source hlook =>
        obtain ⟨rfl, items, hcell, -⟩ := Session.look_eq_unread.1 hlook
        have hne := hi.ne_of_source hcell
        have hs := ih source _ (hi.modify hne (Session.cells_detach s cell))
        split
        · exact ih _ _ (hs.modify hne (Session.cells_keep ..))
        · exact ih _ _ hs
        · exact hs.modify hne (Session.cells_spoil ..)
        all_goals exact hs.modify hne (Session.cells_attach ..)
    | length shared k => exact ih _ _ hi
    | share source k => exact ih _ _ (hi.allocate source)
    | gather step j kept source k =>
      refine Turn.andThen_session (P := fun s => s.Idle i c) (ih _ _ hi) (fun v r t ht => ?_)
        fun _ hs => ih _ _ hs
      split
      · exact ih _ _ ht
      · exact ih _ _ ht
      · exact ht
    | forEach j source body finish =>
      exact Turn.andThen_session (P := fun s => s.Idle i c) (ih _ _ hi) (fun _ _ _ hs => ih _ _ hs)
        fun _ hs => ih _ _ hs
    | apply f call arguments k =>
      simp only [next]
      split
      · exact ih _ _ hi
      · exact hi
    | call call => exact ih _ _ hi
    | log label items rest => exact ih _ _ (hi.of_cells rfl)
    | tick rest => exact ih _ _ (hi.of_cells rfl)

/-! ## What a turn says about drawing -/

/-- The outcome of a turn is what is drawn; what a suspended turn leaves goes on as the producer
would have done. -/
def Sound (h : Host) (p : Producer) (s : Session) (t : Turn) : Prop :=
  match t.outcome with
  | .ready (some v) => Draws h p s.calm (.item v t.rest) t.session.calm
  | .ready none => Draws h p s.calm .finish t.session.calm
  | .failed e => Draws h p s.calm (.failed e) t.session.calm
  | .pending _ => ∀ d u, Draws h t.rest t.session.calm d u → Draws h p s.calm d u
  | .exhausted => True

theorem Sound.step {p q : Producer} {s s' : Session} {t : Turn} (ht : Sound h q s' t)
    (hstep : ∀ d u, Draws h q s'.calm d u → Draws h p s.calm d u) : Sound h p s t := by
  unfold Sound at ht ⊢
  split at ht <;> simp_all

/-- Soundness of a turn that goes on after a turn of an inner producer. -/
theorem Sound.andThen {p : Producer} {s : Session} {t : Turn} {g : Producer → Producer}
    {item : Value → Producer → Session → Turn} {finish : Session → Turn} (ht : Sound h p s t)
    (hitem : ∀ v r u, Draws h p s.calm (.item v r) u.calm → Sound h (g p) s (item v r u))
    (hfinish : ∀ u, Draws h p s.calm .finish u.calm → Sound h (g p) s (finish u))
    (hfailed : ∀ e u, Draws h p s.calm (.failed e) u → Draws h (g p) s.calm (.failed e) u)
    (hresume : ∀ r w, (∀ d u, Draws h r w d u → Draws h p s.calm d u) →
      ∀ d u, Draws h (g r) w d u → Draws h (g p) s.calm d u) :
    Sound h (g p) s (t.andThen g item finish) := by
  obtain ⟨outcome, rest, u⟩ := t
  rcases outcome with (_ | v) | topic | e | _
  · exact hfinish _ ht
  · exact hitem _ _ _ ht
  · exact hresume _ _ ht
  · exact hfailed _ _ ht
  · trivial

/-- The turn of a reader that advances the source of a cell. -/
theorem sound_unread {shared : Shared} {i cell fuel : Nat} {k : Option Value → Producer}
    {source : Producer} {s : Session} (hl : s.look shared i = .unread cell source)
    (hsource : Sound h source (s.detach cell) (next h fuel source (s.detach cell)))
    (hk : ∀ v u, Sound h (k v) u (next h fuel (k v) u))
    (hfetch : ∀ u, Sound h (fetch shared i k) u (next h fuel (fetch shared i k) u)) :
    Sound h (fetch shared i k) s (next h (fuel + 1) (fetch shared i k) s) := by
  obtain ⟨rfl, items, hcell, hi⟩ := Session.look_eq_unread.1 hl
  have hidle := idle_next (h := h) fuel source _ (Session.idle_detach hcell)
  simp only [next, hl]
  generalize next h fuel source (s.detach cell) = t at hsource hidle ⊢
  obtain ⟨outcome, rest, u⟩ := t
  -- After a suspension the reader finds the rest of the source where it was put back.
  have hresume : (∀ d w, Draws h rest u.calm d w → Draws h source (s.detach cell).calm d w) →
      ∀ d w, Draws h (fetch (.cell cell) i k) (u.attach cell rest).calm d w →
        Draws h (fetch (.cell cell) i k) s.calm d w := by
    intro hr d w hd
    have hl' : (u.attach cell rest).calm.look (.cell cell) i = .unread cell rest := by
      rw [Session.look_calm, Session.look_eq_unread]
      exact ⟨rfl, items, by simp [Session.cells_attach, Array.getElem?_modify, hidle.1], hi⟩
    have hu : (u.attach cell rest).calm.detach cell = u.calm := by
      rw [← Session.calm_detach, Session.detach_attach hidle]
    cases hd with
    | fetch_item hx | fetch_finish hx | fetch_failed hx => rw [hl'] at hx; cases hx
    | unread_item hx hs hd =>
      rw [hl'] at hx
      cases hx
      exact .unread_item hl (hr _ _ (hu ▸ hs)) hd
    | unread_finish hx hs hd =>
      rw [hl'] at hx
      cases hx
      exact .unread_finish hl (hr _ _ (hu ▸ hs)) hd
    | unread_failed hx hs =>
      rw [hl'] at hx
      cases hx
      exact .unread_failed hl (hr _ _ (hu ▸ hs))
  rcases outcome with (_ | v) | topic | e | _
  · exact (hk _ _).step fun _ _ hd => .unread_finish hl hsource hd
  · exact (hfetch _).step fun _ _ hd => .unread_item hl hsource hd
  · exact hresume hsource
  · exact Draws.unread_failed (t := u.calm) hl hsource
  · trivial

theorem sound_next (fuel : Nat) (p : Producer) (s : Session) : Sound h p s (next h fuel p s) := by
  induction fuel generalizing p s with
  | zero => trivial
  | succ fuel ih =>
    cases p with
    | done => exact .done
    | fail e => exact .fail
    | emit v rest => exact .emit
    | append first second =>
      refine (ih first s).andThen (g := (append · second))
        (fun v r u hd => .append_item hd)
        (fun u hd => (ih (second ()) u).step fun _ _ => .append_finish hd)
        (fun _ _ => .append_failed) ?_
      intro r w hr d u hd
      cases hd with
      | append_item hd => exact .append_item (hr _ _ hd)
      | append_finish hd hd' => exact .append_finish (hr _ _ hd) hd'
      | append_failed hd => exact .append_failed (hr _ _ hd)
    | ask q k =>
      rcases Nat.eq_zero_or_pos (s.remaining h q) with hr | hr
      · simp only [next, s.ask_prompt hr]
        rcases ha : h.answer q with e | a
        · exact .ask_failed ha
        · exact (ih (k a) (s.receive q)).step fun _ _ => .ask ha
      · simp only [next, s.ask_late hr]
        exact fun _ _ hd => hd
    | fetch shared i k =>
      rcases hl : s.look shared i with v | _ | e | ⟨cell, source⟩
      · simp only [next, hl]
        exact (ih _ _).step fun _ _ => .fetch_item hl
      · simp only [next, hl]
        exact (ih _ _).step fun _ _ => .fetch_finish hl
      · simp only [next, hl]
        exact .fetch_failed hl
      · exact sound_unread hl (ih _ _) (fun _ => ih _) (ih _)
    | length shared k => exact (ih _ _).step fun _ _ hd => .length hd
    | share source k => exact (ih _ _).step fun _ _ hd => .share hd
    | gather step i kept source k =>
      refine (ih source s).andThen (g := (gather step i kept · k)) (fun v r u hd => ?_)
        (fun u hd => (ih _ _).step fun _ _ => .gather_finish hd)
        (fun _ _ => .gather_failed) ?_
      · split
        next hm => exact (ih _ _).step fun _ _ => .gather_more hd hm
        next hm => exact (ih _ _).step fun _ _ => .gather_enough hd hm
        next hm => exact .gather_fail hd hm
      · intro r w hr d u hd
        cases hd with
        | gather_more hd hm hd' => exact .gather_more (hr _ _ hd) hm hd'
        | gather_enough hd hm hd' => exact .gather_enough (hr _ _ hd) hm hd'
        | gather_fail hd hm => exact .gather_fail (hr _ _ hd) hm
        | gather_finish hd hd' => exact .gather_finish (hr _ _ hd) hd'
        | gather_failed hd => exact .gather_failed (hr _ _ hd)
    | forEach i source body finish =>
      refine (ih source s).andThen (g := (forEach i · body finish))
        (fun v r u hd => (ih _ _).step fun _ _ => .forEach_item hd)
        (fun u hd => (ih _ _).step fun _ _ => .forEach_finish hd)
        (fun _ _ => .forEach_failed) ?_
      intro r w hr d u hd
      cases hd with
      | forEach_item hd hd' => exact .forEach_item (hr _ _ hd) hd'
      | forEach_finish hd hd' => exact .forEach_finish (hr _ _ hd) hd'
      | forEach_failed hd => exact .forEach_failed (hr _ _ hd)
    | apply f c arguments k =>
      simp only [next]
      split
      next hf => exact (ih _ _).step fun _ _ => .apply hf
      next hf => exact .apply_failed hf
    | call c => exact (ih _ _).step fun _ _ => .call
    | log label items rest => exact (ih _ _).step fun _ _ => Draws.log (s := s.calm)
    | pause rest => exact fun _ _ => .pause
    | tick rest => exact (ih _ _).step fun _ _ => Draws.tick (s := s.calm)

end Producer

end XPath
