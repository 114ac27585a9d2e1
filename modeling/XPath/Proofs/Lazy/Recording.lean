import XPath.Proofs.Lazy.Retelling
import XPath.Proofs.Lazy.Settling

/-!
# Recording turns

A world records a session if every cell is there as it was first found, with the draws that have brought
it to where it stands, and each of them can be replayed. Every turn of a producer can be recorded
(`Producer.next_recorded`): its outcome is retold by the world as it is then, and what a suspended turn
leaves goes on as the producer would have done.
-/

namespace XPath

open Producer

variable {h : Host} {w w' w'' : World} {r r' r'' : Realm} {s s' s'' t : Session} {D : Finset Nat}
  {Δ : Set Nat} {v : View}

/-! ## Recorded cells -/

/-- Whatever is retold of what is left is retold of the producer, also later on. -/
def Resumes (h : Host) (w : World) (left p : Producer) : Prop :=
  ∀ w', w ≤ w' → ∀ d, Retells h w' left d → Retells h w' p d

namespace Resumes

variable {p q q' : Producer}

theorem refl (p : Producer) : Resumes h w p p := fun _ _ _ => id

theorem mono (hw : w ≤ w') (hq : Resumes h w q p) : Resumes h w' q p :=
  fun w'' hw' => hq w'' (hw.trans hw')

theorem trans (hq : Resumes h w q p) (hq' : Resumes h w q' q) : Resumes h w q' p :=
  fun w' hw d hd => hq w' hw d (hq' w' hw d hd)

end Resumes

/-- The cell has the items that have been drawn, and what is left to compute goes on from there. It
depends on no more than it may. -/
structure Cell.Keeps (h : Host) (w : World) (τ : Ties) (c drawn : Cell) : Prop where
  items : c.items = drawn.items
  error : c.error = drawn.error
  source : Option.Rel (Resumes h w) c.source drawn.source
  alike : c.Alike τ c

/-- The cell of the session is where the draws from it have brought it. -/
def Recorded (h : Host) (w : World) (r : Realm) (s : Session) (n : Nat) : Prop :=
  ∃ c x, s.cells[n]? = some c ∧ w.past n = some x ∧ x.Replayed h w x.draws ∧
    c.Keeps h w (r.ties (r.view n)) (x.state x.draws)

/-- The world records the session, apart from the cells that are being computed. -/
structure Records (h : Host) (w : World) (r : Realm) (s : Session) (Δ : Set Nat) : Prop where
  partner : ∀ n < r.size, r.partner n = n
  fresh : ∀ n, r.size ≤ n → w.past n = none
  cells : ∀ n < r.size, n ∉ Δ → Recorded h w r s n

theorem Past.Replayed.mono {x : Past} {done : List Draw} (hw : w ≤ w') (hx : x.Replayed h w done) :
    x.Replayed h w' done :=
  fun before d left items p hd hp => (hx before d left items p hd hp).mono hw

theorem Cell.Keeps.mono {τ τ' : Ties} {c drawn : Cell} (hw : w ≤ w') (hτ : τ ≤ τ')
    (hc : c.Keeps h w τ drawn) : c.Keeps h w' τ' drawn where
  items := hc.items
  error := hc.error
  source := hc.source.imp fun _ _ h => h.mono hw
  alike := hc.alike.mono hτ

theorem Cell.Keeps.unread {τ : Ties} {items : Array Value} {p : Producer} {drawn : Cell}
    (hc : Cell.Keeps h w τ ⟨items, some p, none⟩ drawn) :
    ∃ p₀, drawn = ⟨items, some p₀, none⟩ ∧ Resumes h w p p₀ ∧ p.Alike τ p ∧
      List.Forall₂ (Value.Alike (τ.scope .known)) items.toList items.toList := by
  obtain ⟨hitems, herror, hsource, halike⟩ := hc
  obtain ⟨items', source, error⟩ := drawn
  dsimp only at hitems herror hsource
  subst hitems herror
  have hself := halike.source
  cases hsource with
  | some hp =>
    cases hself with
    | some hself => exact ⟨_, rfl, hp, hself, halike.items⟩

/-- A cell that is left alone stays recorded. -/
theorem Recorded.grow {n : Nat} (hs : Recorded h w r s n) (hw : w ≤ w') (hr : r ≤ r')
    (hn : n < r.size) (hcell : t.cells[n]? = s.cells[n]?) (hpast : w'.past n = w.past n) :
    Recorded h w' r' t n := by
  obtain ⟨c, x, hc, hx, hreplayed, hkeeps⟩ := hs
  exact ⟨c, x, hcell.trans hc, hpast.trans hx, hreplayed.mono hw,
    hkeeps.mono hw (Realm.ties_view_mono hr hn)⟩

theorem Records.of_cells (hs : Records h w r s Δ) (ht : t.cells = s.cells) : Records h w r t Δ where
  partner := hs.partner
  fresh := hs.fresh
  cells n hn hΔ := (hs.cells n hn hΔ).grow le_rfl le_rfl hn (by rw [ht]) rfl

/-- What a turn with the view may do to a session and to the world that records it. -/
structure Advance (h : Host) (D : Finset Nat) (Δ : Set Nat) (v : View) (failed : Prop) (w : World)
    (r : Realm) (s : Session) (w' : World) (r' : Realm) (s' : Session) : Prop where
  le : w ≤ w'
  same : ∀ n ∈ Δ, w'.past n = w.past n
  records : Records h w' r' s' Δ
  passage : Passage v D Δ failed r s r' s'

namespace Advance

variable {failed : Prop}

theorem of_cells (hs : Records h w r s Δ) (hr : Ready r s D Δ v) (ht : t.cells = s.cells) :
    Advance h D Δ v failed w r s w r t :=
  ⟨le_rfl, fun _ _ => rfl, hs.of_cells ht, .of_cells hr ht⟩

theorem refl (hs : Records h w r s Δ) (hr : Ready r s D Δ v) :
    Advance h D Δ v failed w r s w r s := of_cells hs hr rfl

theorem trans (ha : Advance h D Δ v False w r s w' r' s')
    (ha' : Advance h D Δ v failed w' r' s' w'' r'' s'') :
    Advance h D Δ v failed w r s w'' r'' s'' where
  le := ha.le.trans ha'.le
  same n hn := (ha'.same n hn).trans (ha.same n hn)
  records := ha'.records
  passage := ha.passage.trans ha'.passage

theorem of_sourced {b : Bool} (ha : Advance h D Δ (v.sourced b) failed w r s w' r' s') :
    Advance h D Δ v failed w r s w' r' s' :=
  ⟨ha.le, ha.same, ha.records, ha.passage.congr (View.crew_sourced b)⟩

end Advance

/-! ## Recorded turns -/

/-- The turn comes to an error. -/
def Turn.Fails (t : Turn) : Prop :=
  match t.outcome with
  | .failed _ => True
  | _ => False

/-- The outcome of the turn is retold of the producer, and what it leaves depends on no more than the
ties allow. -/
def Turn.Retold (h : Host) (w : World) (τ : Ties) (p : Producer) (t : Turn) : Prop :=
  match t.outcome with
  | .ready (some u) =>
    Retells h w p (.item u t.rest) ∧ u.Alike (τ.scope .known) u ∧ t.rest.Alike τ t.rest
  | .ready none => Retells h w p .finish
  | .failed e => Retells h w p (.failed e)
  | .pending _ | .exhausted => Resumes h w t.rest p ∧ t.rest.Alike τ t.rest

theorem Turn.Retold.resume {τ : Ties} {p q : Producer} {t : Turn} (ht : t.Retold h w τ q)
    (hq : Resumes h w q p) : t.Retold h w τ p := by
  unfold Retold at ht ⊢
  split at ht
  · exact ⟨hq w le_rfl _ ht.1, ht.2⟩
  · exact hq w le_rfl _ ht
  · exact hq w le_rfl _ ht
  · exact ⟨hq.trans ht.1, ht.2⟩
  · exact ⟨hq.trans ht.1, ht.2⟩

/-- The turn of a producer is recorded in a later world. -/
def Records.Turns (h : Host) (w : World) (r : Realm) (s : Session) (D : Finset Nat) (Δ : Set Nat)
    (v : View) (p : Producer) (t : Turn) : Prop :=
  ∃ w' r', Advance h D Δ v t.Fails w r s w' r' t.session ∧ t.Retold h w' (r'.ties v) p

namespace Records.Turns

variable {p q : Producer} {t : Turn} {b : Bool}

/-- After some steps the producer goes on as another one does. -/
theorem onward (hq : Turns h w' r' s' D Δ v q t) (ha : Advance h D Δ v False w r s w' r' s')
    (hr : Resumes h w' q p) : Turns h w r s D Δ v p t := by
  obtain ⟨w'', r'', ha', ht⟩ := hq
  exact ⟨w'', r'', ha.trans ha', ht.resume (hr.mono ha'.le)⟩

/-- A turn of an inner producer, and what follows it. -/
theorem andThen {g : Producer → Producer} {item : Value → Producer → Session → Turn}
    {finish : Session → Turn} (ht : Turns h w r s D Δ (v.sourced b) p t)
    (hitem : ∀ u q w' r' s', Advance h D Δ v False w r s w' r' s' → Retells h w' p (.item u q) →
      u.Alike (((r'.ties v).sourced b).scope .known) u → q.Alike ((r'.ties v).sourced b) q →
      Turns h w' r' s' D Δ v (g p) (item u q s'))
    (hfinish : ∀ w' r' s', Advance h D Δ v False w r s w' r' s' → Retells h w' p .finish →
      Turns h w' r' s' D Δ v (g p) (finish s'))
    (hfailed : ∀ w' e, Retells h w' p (.failed e) → Retells h w' (g p) (.failed e))
    (hresume : ∀ w' q, Resumes h w' q p → Resumes h w' (g q) (g p))
    (halike : ∀ r' q, r ≤ r' → q.Alike ((r'.ties v).sourced b) q →
      (g q).Alike (r'.ties v) (g q)) :
    Turns h w r s D Δ v (g p) (t.andThen g item finish) := by
  obtain ⟨w', r', ha, ht⟩ := ht
  have ha := ha.of_sourced
  rw [← Realm.ties_sourced] at ht
  obtain ⟨outcome, rest, u⟩ := t
  rcases outcome with (_ | x) | topic | e | _
  · exact (hfinish w' r' u ha ht).onward ha (.refl _)
  · exact (hitem x rest w' r' u ha ht.1 ht.2.1 ht.2.2).onward ha (.refl _)
  · exact ⟨w', r', ha, hresume w' rest ht.1, halike r' rest ha.passage.le ht.2⟩
  · exact ⟨w', r', ha, hfailed w' e ht⟩
  · exact ⟨w', r', ha, hresume w' rest ht.1, halike r' rest ha.passage.le ht.2⟩

end Records.Turns

/-! ## Recorded cells in turns -/

/-- What a recorded cell has at an index is shown by the world. -/
theorem Recorded.look {n : Nat} (hs : Recorded h w r s n) (i : Nat) :
    match s.look (.cell n) i with
    | .item u => w.Shows h n i (.ok (some u)) ∧ u.Alike (r.scope (r.view n) .known) u
    | .finish => w.Shows h n i (.ok none)
    | .failed e => w.Shows h n i (.error e)
    | .unread _ _ => True := by
  obtain ⟨⟨items, source, error⟩, x, hc, hx, hreplayed, hkeeps⟩ := hs
  have shows {found : Except Error (Option Value)} (hshows : (x.state x.draws).Shows i found) :
      w.Shows h n i found := ⟨x, x.draws, hx, List.prefix_refl _, hreplayed, hshows⟩
  have hitems := hkeeps.items
  have herror := hkeeps.error
  have hsource := hkeeps.source
  have hself := hkeeps.alike.getElem? i
  dsimp only at hitems herror hsource hself
  rw [hitems] at hself
  rw [Session.look, hc]
  dsimp only
  rw [hitems, herror]
  generalize hi : (x.state x.draws).items[i]? = found at hself
  cases found with
  | some u =>
    cases hself with
    | some hu => exact ⟨shows (.item hi), hu⟩
  | none =>
    cases he : (x.state x.draws).error with
    | some e => exact shows (.failed hi he)
    | none =>
      cases source with
      | some p => trivial
      | none =>
        generalize hp : (x.state x.draws).source = p at hsource
        cases hsource
        exact shows (.finish hi hp he)

/-- The source of a cell is taken out to be computed. -/
theorem Records.enter {n : Nat} (hs : Records h w r s Δ) :
    Records h w r (s.detach n) (insert n Δ) where
  partner := hs.partner
  fresh := hs.fresh
  cells m hm hΔ := by
    rw [Set.mem_insert_iff, not_or] at hΔ
    exact (hs.cells m hm hΔ.2).grow le_rfl le_rfl hm (Session.cells_detach_of_ne hΔ.1) rfl

namespace Advance

variable {n : Nat} {x : Past} {items : Array Value} {p q : Producer} {d : Draw}

/-- Apart from the cell that has been computed, the others are recorded after it as well. -/
theorem others {failed : Prop} (ha : Advance h D (insert n Δ) v failed w r s w' r' t) {m : Nat}
    (hm : m < r'.size) (hΔ : m ∉ Δ) (hne : m ≠ n) : Recorded h w' r' t m := by
  refine ha.records.cells m hm ?_
  rintro (h | h)
  · exact hne h
  · exact hΔ h

/-- What is left of the source of a cell is put back. -/
theorem attach (hr : Ready r s D Δ v) (hn : r.Reads v n n) (hx : w.past n = some x)
    (hreplayed : x.Replayed h w x.draws) (hc : s.cells[n]? = some ⟨items, some p, none⟩)
    (hkeeps : Cell.Keeps h w (r.ties (r.view n)) ⟨items, some p, none⟩ (x.state x.draws))
    (ha : Advance h D (insert n Δ) (r.view n) False w r (s.detach n) w' r' t)
    (hq : Resumes h w' q p) (halike : q.Alike (r'.ties (r'.view n)) q) :
    Advance h D Δ v False w r s w' r' (t.attach n q) where
  le := ha.le
  same m hm := ha.same m (.inr hm)
  passage := ha.passage.leave_attach hr hn.1
  records := by
    refine ⟨ha.records.partner, ha.records.fresh, fun m hm hΔ => ?_⟩
    by_cases hne : m = n
    · subst hne
      obtain ⟨p₀, hdrawn, hp, -, hitems⟩ := hkeeps.unread
      have hties := Realm.ties_view_mono ha.passage.le hn.1.lt
      have hidle : t.cells[m]? = some ⟨items, none, none⟩ := by
        rw [ha.passage.same m (.inl rfl)]
        exact (Session.idle_detach hc).1
      have hcell : (t.attach m q).cells[m]? = some ⟨items, some q, none⟩ := by
        simp [Session.cells_attach, Array.getElem?_modify, hidle]
      refine ⟨_, x, hcell, (ha.same m (.inl rfl)).trans hx, hreplayed.mono ha.le, ?_⟩
      rw [hdrawn]
      refine ⟨rfl, rfl, .some ((hp.mono ha.le).trans hq), ?_, .some halike, rfl⟩
      exact hitems.imp fun _ _ h => h.mono (hties.1 .known)
    · exact (ha.others hm hΔ hne).grow le_rfl le_rfl hm (Session.cells_attach_of_ne hne) rfl

/-- What has been drawn from the source of a cell is put into the cell, and noted in the world. -/
theorem absorb (hr : Ready r s D Δ v) (hn : r.Reads v n n) (hx : w.past n = some x)
    (hreplayed : x.Replayed h w x.draws) (hc : s.cells[n]? = some ⟨items, some p, none⟩)
    (hkeeps : Cell.Keeps h w (r.ties (r.view n)) ⟨items, some p, none⟩ (x.state x.draws))
    (ha : Advance h D (insert n Δ) (r.view n) d.Fails w r (s.detach n) w' r' t)
    (hd : Retells h w' p d) (halike : d.Alike (r'.ties (r'.view n)) d) :
    ∃ w'', Advance h D Δ v d.Fails w r s w'' r' (t.absorb n d) := by
  obtain ⟨p₀, hdrawn, hp, -, hitems⟩ := hkeeps.unread
  have hties := Realm.ties_view_mono ha.passage.le hn.1.lt
  have hidle : t.cells[n]? = some ⟨items, none, none⟩ := by
    rw [ha.passage.same n (.inl rfl)]
    exact (Session.idle_detach hc).1
  have hx' : w'.past n = some x := (ha.same n (.inl rfl)).trans hx
  have hlive : (x.state x.draws).Live := ⟨items, p₀, hdrawn⟩
  have hle := World.le_set_add hx' (d := d) hlive
  have hreplays : Replays h w' p₀ d := (hp w' ha.le d hd).replays
  have hdrawn' : (x.add d hlive).state (x.add d hlive).draws = (⟨items, some p₀, none⟩ : Cell).after d := by
    rw [← hdrawn, ← Past.state_snoc]
    rfl
  refine ⟨w'.set n (x.add d hlive), ha.le.trans hle, fun m hm => ?_, ⟨ha.records.partner, fun m hm => ?_,
    fun m hm hΔ => ?_⟩, ha.passage.leave hr hn⟩
  · have hne : m ≠ n := by
      rintro rfl
      exact hr.not_mem hn.1 hm
    exact (World.past_set_of_ne hne).trans (ha.same m (.inr hm))
  · have hne : m ≠ n := by
      have := hn.1.lt
      have := ha.passage.le.1
      omega
    exact (World.past_set_of_ne hne).trans (ha.records.fresh m hm)
  by_cases hne : m = n
  · subst hne
    refine ⟨_, _, Session.cells_absorb_self (p := p₀) d hidle, World.past_set_self, ?_, ?_⟩
    · intro before d' left items' p' hdraws hp'
      rcases left.eq_nil_or_concat with rfl | ⟨left, d'', rfl⟩
      · obtain ⟨rfl, hd'⟩ := List.append_inj' hdraws rfl
        cases hd'
        cases hdrawn.symm.trans hp'
        exact hreplays.mono hle
      · rw [List.concat_eq_append, ← List.cons_append, ← List.append_assoc] at hdraws
        have hdraws := (List.append_inj' hdraws rfl).1
        exact (hreplayed before d' left items' p' hdraws hp').mono (ha.le.trans hle)
    · have hself : Cell.Alike (r'.ties (r'.view m)) ⟨items, none, none⟩ ⟨items, none, none⟩ :=
        ⟨hitems.imp fun _ _ h => h.mono (hties.1 .known), .none, rfl⟩
      have hafter := hself.after halike
      rw [hdrawn']
      cases d with
      | item => exact ⟨rfl, rfl, .some (.refl _), hafter⟩
      | finish | failed => exact ⟨rfl, rfl, .none, hafter⟩
  · exact (ha.others hm hΔ hne).grow hle le_rfl hm (Session.cells_absorb hne)
      (World.past_set_of_ne hne)

end Advance

/-- A sequence is put into a new cell, and noted in the world. -/
theorem Advance.allocate {p : Producer} (hs : Records h w r s Δ) (hr : Ready r s D Δ v)
    (hp : p.Alike (.of (r.scope v)) p) {owner : Option Agent} (hhost : owner ≠ some .host) :
    ∃ w' r' x, Advance h D Δ v False w r s w' r' (s.allocate p).2 ∧
      r'.Sees v s.cells.size s.cells.size ∧ r'.owner s.cells.size = owner ∧
      w'.past s.cells.size = some x ∧ x.first = ⟨#[], some p, none⟩ := by
  obtain ⟨r', hle, hsize, hsees, howner, hties⟩ := r.exists_add v owner r.size
  have hnone := hs.fresh r.size le_rfl
  have hlew : w ≤ w.set r.size (.start ⟨#[], some p, none⟩) := World.le_set_of_none hnone
  have heq := hr.fits.size
  refine ⟨w.set r.size (.start ⟨#[], some p, none⟩), r', _, ⟨hlew, fun n hn => ?_, ?_,
    .allocate hr hle hsize (howner ▸ hhost)⟩, heq ▸ hsees, heq ▸ howner, by rw [← heq, World.past_set_self], rfl⟩
  · exact World.past_set_of_ne (Nat.ne_of_lt (hr.busy n hn).1)
  refine ⟨fun n hn => ?_, fun n hn => ?_, fun n hn hΔ => ?_⟩
  · by_cases hnew : n = r.size
    · subst hnew
      exact hsees.partner
    · have hlt : n < r.size := by omega
      exact (hle.2 n hlt).2.2.2.trans (hs.partner n hlt)
  · exact (World.past_set_of_ne (by omega)).trans (hs.fresh n (by omega))
  · by_cases hnew : n = r.size
    · subst hnew
      refine ⟨⟨#[], some p, none⟩, _, ?_, World.past_set_self, ?_, rfl, rfl, .some (.refl p), .nil,
        .some (hp.mono hties), rfl⟩
      · simp [Session.cells_allocate, heq]
      · intro before d left items q hd _
        simp [Past.start] at hd
    · have hlt : n < r.size := by omega
      refine (hs.cells n hlt hΔ).grow hlew hle hlt ?_ (World.past_set_of_ne hnew)
      simp [Session.cells_allocate, Array.getElem?_push, ← heq, hnew]

/-! ## Turns -/

/-- Over the host, every turn with so much fuel is recorded. -/
def RecordsAll (h : Host) (D : Finset Nat) (fuel : Nat) : Prop :=
  ∀ p w r s Δ v, Records h w r s Δ → Ready r s D Δ v → p.Alike (r.ties v) p →
    Records.Turns h w r s D Δ v p (next h fuel p s)

namespace RecordsAll

variable {fuel i : Nat} {shared : Shared}

theorem ask (ih : RecordsAll h D fuel) (hs : Records h w r s Δ) (hr : Ready r s D Δ v) {q : Query}
    {k : q.Answer → Producer} (hp : (Producer.ask q k).Alike (r.ties v) (.ask q k)) :
    Records.Turns h w r s D Δ v (.ask q k) (next h (fuel + 1) (.ask q k) s) := by
  rcases Nat.eq_zero_or_pos (s.remaining h q) with hprompt | hlate
  · have hadv : Advance h D Δ v False w r s w r (s.receive q) := .of_cells hs hr rfl
    simp only [next, s.ask_prompt hprompt]
    cases hp with
    | ask hk =>
      rcases ha : h.answer q with e | a
      · exact ⟨w, r, .of_cells hs hr rfl, .ask_failed ha⟩
      · exact (ih _ w r _ Δ v hadv.records (hr.after hadv.passage) (hk a)).onward hadv
          fun _ _ _ => .ask ha
  · simp only [next, s.ask_late hlate]
    exact ⟨w, r, .of_cells hs hr rfl, .refl _, hp⟩

theorem fetch_listed (ih : RecordsAll h D fuel) (hs : Records h w r s Δ) (hr : Ready r s D Δ v)
    {vs : List Value} {k : Option Value → Producer}
    (hp : (Producer.fetch (.listed vs) i k).Alike (r.ties v) (.fetch (.listed vs) i k)) :
    Records.Turns h w r s D Δ v (.fetch (.listed vs) i k)
      (next h (fuel + 1) (.fetch (.listed vs) i k) s) := by
  have hnext : next h (fuel + 1) (.fetch (.listed vs) i k) s = next h fuel (k vs[i]?) s := by
    simp only [next, Session.look]
    cases vs[i]? <;> rfl
  cases hp with
  | fetch hshared hk =>
    cases hshared with
    | known hshared =>
      have hi := (Shared.alike_listed.1 hshared).getElem? i
      rw [hnext]
      exact (ih _ w r s Δ v hs hr (hk _ le_rfl _ _ hi)).onward (.refl hs hr) fun _ _ _ =>
        .fetch_listed

/-- A reader advances the source of a cell, and puts back what is left of it. -/
theorem unread (ih : RecordsAll h D fuel) (hs : Records h w r s Δ) (hr : Ready r s D Δ v) {n : Nat}
    {p : Producer} {k : Option Value → Producer} (hn : r.Reads v n n)
    (hl : s.look (.cell n) i = .unread n p)
    (hk : ∀ τ', r.ties v ≤ τ' → ∀ x x', Option.Rel (Value.Alike (τ'.scope .known)) x x' →
      (k x).Alike τ' (k x'))
    (hp : (Producer.fetch (.cell n) i k).Alike (r.ties v) (.fetch (.cell n) i k)) :
    Records.Turns h w r s D Δ v (.fetch (.cell n) i k)
      (next h (fuel + 1) (.fetch (.cell n) i k) s) := by
  obtain ⟨-, items, hc, hi⟩ := Session.look_eq_unread.1 hl
  obtain ⟨c, x, hc', hx, hreplayed, hkeeps⟩ := hs.cells n hn.1.lt (hr.not_mem hn.1)
  cases hc.symm.trans hc'
  have hsound : ¬s.Failed n := by
    rintro ⟨c, hc', he⟩
    cases hc.symm.trans hc'
    exact he rfl
  obtain ⟨-, -, -, hself, -⟩ := hkeeps.unread
  obtain ⟨w', r', hadv, ht⟩ := ih p w r _ _ _ hs.enter (hr.enter hn.1 hsound) hself
  rw [← Realm.view_eq hadv.passage.le hn.1.lt] at ht
  have hidle : (next h fuel p (s.detach n)).session.cells[n]? = some ⟨items, none, none⟩ := by
    rw [hadv.passage.same n (.inl rfl)]
    exact (Session.idle_detach hc).1
  simp only [next, hl]
  generalize next h fuel p (s.detach n) = t at hadv ht hidle
  obtain ⟨outcome, rest, t⟩ := t
  have shows {w'' : World} {r' : Realm} {t : Session} (hrec : Records h w'' r' t Δ) (hle : r ≤ r') :=
    (hrec.cells n (Nat.lt_of_lt_of_le hn.1.lt hle.1) (hr.not_mem hn.1)).look i
  rcases outcome with (_ | u) | topic | e | _
  · obtain ⟨w'', hadv'⟩ := hadv.absorb (d := .finish) hr hn hx hreplayed hc hkeeps ht .finish
    have hl' : t.look (.cell n) i = .finish := by simp [Session.look, hidle, hi]
    have hshows := shows hadv'.records hadv.passage.le
    rw [Session.absorb, hl'] at hshows
    have hk' := hk _ (Realm.ties_mono hadv.passage.le v) none none .none
    exact (ih _ w'' r' t Δ v hadv'.records (hr.after hadv'.passage) hk').onward hadv'
      fun _ hw _ => .fetch (hshows.mono hw)
  · obtain ⟨w'', hadv'⟩ := hadv.absorb (d := .item u rest) hr hn hx hreplayed hc hkeeps ht.1
      (.item ht.2.1 ht.2.2)
    exact (ih _ w'' r' _ Δ v hadv'.records (hr.after hadv'.passage)
      (hp.mono (Realm.ties_mono hadv'.passage.le v))).onward hadv' (.refl _)
  · have hadv' := hadv.attach hr hn hx hreplayed hc hkeeps ht.1 ht.2
    exact ⟨w', r', hadv', .refl _, hp.mono (Realm.ties_mono hadv'.passage.le v)⟩
  · obtain ⟨w'', hadv'⟩ := hadv.absorb (d := .failed e) hr hn hx hreplayed hc hkeeps ht .failed
    have hl' : (t.spoil n e).look (.cell n) i = .failed e := by
      simp [Session.look, Session.cells_spoil, Array.getElem?_modify, hidle, hi]
    have hshows := shows hadv'.records hadv.passage.le
    rw [Session.absorb, hl'] at hshows
    exact ⟨w'', r', hadv', .fetch_failed hshows⟩
  · have hadv' := hadv.attach hr hn hx hreplayed hc hkeeps ht.1 ht.2
    exact ⟨w', r', hadv', .refl _, hp.mono (Realm.ties_mono hadv'.passage.le v)⟩

theorem fetch (ih : RecordsAll h D fuel) (hs : Records h w r s Δ) (hr : Ready r s D Δ v)
    {k : Option Value → Producer} (hp : (Producer.fetch shared i k).Alike (r.ties v) (.fetch shared i k)) :
    Records.Turns h w r s D Δ v (.fetch shared i k) (next h (fuel + 1) (.fetch shared i k) s) := by
  cases shared with
  | listed vs => exact ih.fetch_listed hs hr hp
  | cell n =>
    have hp' := hp
    cases hp' with
    | fetch hshared hk =>
      obtain ⟨a, ha, hn⟩ := Realm.reads_of_readable hshared
      cases ha
      have hlook := (hs.cells n hn.1.lt (hr.not_mem hn.1)).look i
      cases hl : s.look (.cell n) i with
      | item u =>
        rw [hl] at hlook
        simp only [next, hl]
        have hu := hlook.2.mono (Realm.scope_view_le hn.1 .known)
        exact (ih _ w r s Δ v hs hr (hk _ le_rfl _ _ (.some hu))).onward (.refl hs hr)
          fun _ hw _ => .fetch (hlook.1.mono hw)
      | finish =>
        rw [hl] at hlook
        simp only [next, hl]
        exact (ih _ w r s Δ v hs hr (hk _ le_rfl _ _ .none)).onward (.refl hs hr)
          fun _ hw _ => .fetch (hlook.mono hw)
      | failed e =>
        rw [hl] at hlook
        simp only [next, hl]
        exact ⟨w, r, .refl hs hr, .fetch_failed hlook⟩
      | unread m p =>
        obtain ⟨hm, -⟩ := Session.look_eq_unread.1 hl
        cases hm
        exact ih.unread hs hr hn hl hk hp

/-- The length of a focus sequence is known, or it is found by draining the sequence. -/
theorem length (ih : RecordsAll h D fuel) (hs : Records h w r s Δ) (hr : Ready r s D Δ v)
    {k : Option Nat → Producer} (hp : (Producer.length shared k).Alike (r.ties v) (.length shared k)) :
    Records.Turns h w r s D Δ v (.length shared k) (next h (fuel + 1) (.length shared k) s) := by
  cases hp with
  | last hm =>
    cases shared with
    | listed vs =>
      exact (ih _ w r s Δ v hs hr (Producer.Like.atomic _).alike).onward (.refl hs hr)
        fun _ _ _ hd => .length_listed hd
    | cell n =>
      cases hm with
      | cell hm =>
        cases hl : s.length? (.cell n) with
        | none =>
          simp only [next, hl]
          exact (ih _ w r s Δ v hs hr (Scope.Measurable.drain hm)).onward (.refl hs hr)
            fun _ _ _ hd => .length hd
        | some m =>
          simp only [next, hl]
          obtain ⟨items, hc, rfl⟩ := hr.length_eq_some hm hl
          have hshows (i : Nat) : w.Shows h n i (.ok items[i]?) := by
            have hlook := (hs.cells n hm.1.lt (hr.not_mem hm.1)).look i
            cases hi : items[i]? with
            | some u =>
              have hl : s.look (.cell n) i = .item u := by simp [Session.look, hc, hi]
              rw [hl] at hlook
              exact hlook.1
            | none =>
              have hl : s.look (.cell n) i = .finish := by simp [Session.look, hc, hi]
              rwa [hl] at hlook
          refine (ih _ w r s Δ v hs hr (Producer.Like.atomic _).alike).onward (.refl hs hr)
            fun w' hw d hd => ?_
          refine .length (.drain (fun i => (hshows i).mono hw) ?_)
          rwa [Array.length_toList]

theorem share (ih : RecordsAll h D fuel) (hs : Records h w r s Δ) (hr : Ready r s D Δ v)
    {p : Producer} {k : Shared → Producer} (hp : (Producer.share p k).Alike (r.ties v) (.share p k)) :
    Records.Turns h w r s D Δ v (.share p k) (next h (fuel + 1) (.share p k) s) := by
  have resumes {w' : World} {n : Nat} {x : Past} (hx : w'.past n = some x)
      (hfirst : x.first = ⟨#[], some p, none⟩) : Resumes h w' (k (.cell n)) (.share p k) := by
    intro w'' hw d hd
    obtain ⟨y, hy, hfirst', -⟩ := hw n x hx
    exact .share hy (hfirst'.trans hfirst) hd
  cases hp with
  | share hp hk =>
    have hnone : none ≠ some Agent.host := nofun
    obtain ⟨w', r', x, hadv, hsees, howner, hx, hfirst⟩ := Advance.allocate hs hr hp hnone
    have hknown : (r'.scope v) .known s.cells.size s.cells.size := ⟨hsees, by simp [howner]⟩
    exact (ih _ w' r' _ Δ v hadv.records (hr.after hadv.passage)
      (hk _ (Realm.ties_mono hadv.passage.le v) _ _ hknown)).onward hadv (resumes hx hfirst)
  | shareFocus hp hk =>
    have hhost : some v.agent ≠ some .host := fun h => hr.agent (Option.some.inj h)
    obtain ⟨w', r', x, hadv, hsees, howner, hx, hfirst⟩ := Advance.allocate hs hr hp hhost
    have hmeasured : (r'.scope v.inside) .measured s.cells.size s.cells.size :=
      ⟨hsees.inside, v.agent, Set.mem_insert .., howner⟩
    exact (ih _ w' r' _ Δ v hadv.records (hr.after hadv.passage)
      (hk _ (Realm.ties_mono hadv.passage.le v) _ _ ⟨hsees, howner⟩ hmeasured)).onward hadv
      (resumes hx hfirst)

theorem append (ih : RecordsAll h D fuel) (hs : Records h w r s Δ) (hr : Ready r s D Δ v)
    {first : Producer} {second : Unit → Producer}
    (hp : (Producer.append first second).Alike (r.ties v) (.append first second)) :
    Records.Turns h w r s D Δ v (.append first second) (next h (fuel + 1) (.append first second) s) := by
  cases hp with
  | append hf hsecond =>
    rw [next_append]
    refine (ih first w r s Δ v hs hr hf).andThen (b := false) (g := (Producer.append · second)) ?_ ?_ ?_ ?_ ?_
    · intro u q w' r' s' hadv hd hu hq
      have hsecond' := hsecond.mono (Realm.ties_mono hadv.passage.le v)
      exact ⟨w', r', .refl hadv.records (hr.after hadv.passage), .append_item hd, hu,
        .append hq hsecond'⟩
    · intro w' r' s' hadv hd
      have hready := hr.after hadv.passage
      exact (ih _ w' r' s' Δ v hadv.records hready (hsecond.mono
        (Realm.ties_mono hadv.passage.le v))).onward (.refl hadv.records hready)
        fun _ hw _ => .append_finish (hd.mono hw)
    · exact fun _ _ => .append_failed
    · intro w' q hq w'' hw d hd
      cases hd with
      | append_item hd => exact .append_item (hq w'' hw _ hd)
      | append_finish hd hd' => exact .append_finish (hq w'' hw _ hd) hd'
      | append_failed hd => exact .append_failed (hq w'' hw _ hd)
    · exact fun r' q hle hq => .append hq (hsecond.mono (Realm.ties_mono hle v))

theorem gather (ih : RecordsAll h D fuel) (hs : Records h w r s Δ) (hr : Ready r s D Δ v)
    {step : Nat → List Value → Value → Gathering} {kept : List Value} {source : Producer}
    {k : List Value → Producer}
    (hp : (Producer.gather step i kept source k).Alike (r.ties v) (.gather step i kept source k)) :
    Records.Turns h w r s D Δ v (.gather step i kept source k)
      (next h (fuel + 1) (.gather step i kept source k) s) := by
  cases hp with
  | gather b hsource hkept hsteps hk =>
    have hkept' {r' : Realm} (hle : r ≤ r') :=
      hkept.imp fun _ _ h => h.mono ((Ties.sourced_mono (Realm.ties_mono hle v) b).1 .known)
    rw [next_gather]
    rw [Realm.ties_sourced] at hsource
    refine (ih source w r s Δ _ hs (hr.sourced b) hsource).andThen (g := (Producer.gather step i kept · k))
      ?_ ?_ ?_ ?_ ?_
    · intro u q w' r' s' hadv hd hu hq
      have hready := hr.after hadv.passage
      have hties := Realm.ties_mono hadv.passage.le v
      have hmore := hsteps _ hties i _ _ _ _ (hkept' hadv.passage.le) hu
      cases hstep : step i kept u with
      | more vs =>
        rw [hstep] at hmore
        cases hmore with
        | more hvs =>
          have halike := Producer.Alike.gather (i := i + 1) b hq hvs
            (fun τ' hτ => hsteps τ' (hties.trans hτ)) fun τ' hτ => hk τ' (hties.trans hτ)
          exact (ih _ w' r' s' Δ v hadv.records hready halike).onward (.refl hadv.records hready)
            fun _ hw _ => .gather_more (hd.mono hw) hstep
      | enough vs =>
        rw [hstep] at hmore
        cases hmore with
        | enough hvs =>
          exact (ih _ w' r' s' Δ v hadv.records hready (hk _ hties _ _ hvs)).onward
            (.refl hadv.records hready) fun _ hw _ => .gather_enough (hd.mono hw) hstep
      | fail e => exact ⟨w', r', .refl hadv.records hready, .gather_fail hd hstep⟩
    · intro w' r' s' hadv hd
      have hready := hr.after hadv.passage
      have hties := Realm.ties_mono hadv.passage.le v
      exact (ih _ w' r' s' Δ v hadv.records hready (hk _ hties _ _
        (hkept' hadv.passage.le))).onward (.refl hadv.records hready)
        fun _ hw _ => .gather_finish (hd.mono hw)
    · exact fun _ _ => .gather_failed
    · intro w' q hq w'' hw d hd
      cases hd with
      | gather_more hd hm hd' => exact .gather_more (hq w'' hw _ hd) hm hd'
      | gather_enough hd hm hd' => exact .gather_enough (hq w'' hw _ hd) hm hd'
      | gather_fail hd hm => exact .gather_fail (hq w'' hw _ hd) hm
      | gather_finish hd hd' => exact .gather_finish (hq w'' hw _ hd) hd'
      | gather_failed hd => exact .gather_failed (hq w'' hw _ hd)
    · intro r' q hle hq
      have hties := Realm.ties_mono hle v
      exact .gather b hq (hkept' hle) (fun τ' hτ => hsteps τ' (hties.trans hτ))
        fun τ' hτ => hk τ' (hties.trans hτ)

theorem forEach (ih : RecordsAll h D fuel) (hs : Records h w r s Δ) (hr : Ready r s D Δ v)
    {source : Producer} {body : Nat → Value → Producer} {finish : Nat → Producer}
    (hp : (Producer.forEach i source body finish).Alike (r.ties v) (.forEach i source body finish)) :
    Records.Turns h w r s D Δ v (.forEach i source body finish)
      (next h (fuel + 1) (.forEach i source body finish) s) := by
  cases hp with
  | forEach hsource hbody hfinish =>
    have rest {r' : Realm} {q : Producer} {i : Nat} (hle : r ≤ r') (hq : q.Alike (r'.ties v) q) :
        (Producer.forEach i q body finish).Alike (r'.ties v) (.forEach i q body finish) :=
      .forEach hq (fun τ' hτ => hbody τ' ((Realm.ties_mono hle v).trans hτ)) fun i =>
        (hfinish i).mono (Realm.ties_mono hle v)
    rw [next_forEach]
    refine (ih source w r s Δ v hs hr hsource).andThen (b := false)
      (g := (Producer.forEach i · body finish)) ?_ ?_ ?_ ?_ ?_
    · intro u q w' r' s' hadv hd hu hq
      have hready := hr.after hadv.passage
      have hties := Realm.ties_mono hadv.passage.le v
      have halike := Producer.Alike.append (f := fun _ => .forEach (i + 1) q body finish)
        (g := fun _ => .forEach (i + 1) q body finish) (hbody _ hties i _ _ hu)
        (rest hadv.passage.le hq)
      exact (ih _ w' r' s' Δ v hadv.records hready halike).onward (.refl hadv.records hready)
        fun _ hw _ => .forEach_item (hd.mono hw)
    · intro w' r' s' hadv hd
      have hready := hr.after hadv.passage
      exact (ih _ w' r' s' Δ v hadv.records hready ((hfinish i).mono
        (Realm.ties_mono hadv.passage.le v))).onward (.refl hadv.records hready)
        fun _ hw _ => .forEach_finish (hd.mono hw)
    · exact fun _ _ => .forEach_failed
    · intro w' q hq w'' hw d hd
      cases hd with
      | forEach_item hd hd' => exact .forEach_item (hq w'' hw _ hd) hd'
      | forEach_finish hd hd' => exact .forEach_finish (hq w'' hw _ hd) hd'
      | forEach_failed hd => exact .forEach_failed (hq w'' hw _ hd)
    · exact fun r' q hle hq => rest hle hq

theorem apply (ih : RecordsAll h D fuel) (hs : Records h w r s Δ) (hr : Ready r s D Δ v)
    {f : Function} {c : CallContext} {ps : List Producer} {k : Shared → Producer}
    (hp : (Producer.apply f c ps k).Alike (r.ties v) (.apply f c ps k)) :
    Records.Turns h w r s D Δ v (.apply f c ps k) (next h (fuel + 1) (.apply f c ps k) s) := by
  cases hp with
  | apply hf hc hl hps hk =>
    have hps' := List.forall₂_iff_zip.2 ⟨hl, fun h => hps h⟩
    have hinvoke := Function.invoke_like (β := (r.ties v).scope) hc hps' hf
    rw [next]
    cases hx : f.invoke c ps with
    | ok result =>
      rw [hx] at hinvoke
      cases hinvoke with
      | ok hresult =>
        exact (ih _ w r s Δ v hs hr (.share hresult hk)).onward (.refl hs hr) fun _ _ _ => .apply hx
    | error e => exact ⟨w, r, .refl hs hr, .apply_failed hx⟩

end RecordsAll

/-- Every turn is recorded. -/
theorem Producer.next_recorded (fuel : Nat) : RecordsAll h D fuel := by
  induction fuel with
  | zero => exact fun p w r s Δ v hs hr hp => ⟨w, r, .refl hs hr, .refl p, hp⟩
  | succ fuel ih =>
    intro p w r s Δ v hs hr hp
    cases p with
    | done => exact ⟨w, r, .refl hs hr, .done⟩
    | fail e => exact ⟨w, r, .refl hs hr, .fail⟩
    | emit u rest =>
      cases hp with
      | emit hu hrest => exact ⟨w, r, .refl hs hr, .emit, hu, hrest⟩
    | append first second => exact ih.append hs hr hp
    | ask q k => exact ih.ask hs hr hp
    | fetch shared i k => exact ih.fetch hs hr hp
    | length shared k => exact ih.length hs hr hp
    | share source k => exact ih.share hs hr hp
    | gather step i kept source k => exact ih.gather hs hr hp
    | forEach i source body finish => exact ih.forEach hs hr hp
    | apply f c ps k => exact ih.apply hs hr hp
    | call c =>
      cases hp with
      | call hc => exact (ih _ w r s Δ v hs hr hc.body).onward (.refl hs hr) fun _ _ _ => .call
    | log label items rest =>
      cases hp with
      | log hrest =>
        have hadv : Advance h D Δ v False w r s w r (s.report label items) := .of_cells hs hr rfl
        exact (ih _ w r _ Δ v hadv.records (hr.after hadv.passage) hrest).onward hadv
          fun _ _ _ => .log
    | pause rest =>
      cases hp with
      | pause hrest => exact ⟨w, r, .refl hs hr, fun _ _ _ => .pause, hrest⟩
    | tick rest =>
      cases hp with
      | tick hrest =>
        have hadv : Advance h D Δ v False w r s w r s.tick := .of_cells hs hr rfl
        exact (ih _ w r _ Δ v hadv.records (hr.after hadv.passage) hrest).onward hadv
          fun _ _ _ => .tick

end XPath
