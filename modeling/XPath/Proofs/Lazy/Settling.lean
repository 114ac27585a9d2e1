import XPath.Proofs.Lazy.Waiting

/-!
# Settling

A driver that waits whenever a producer suspends, and then asks again, gets what is drawn without
waiting, whatever the host delays: `Producer.Settles` is such a drive to the next item, and
`Producer.Draws.reaches` says that there is one. Driving to the end is the same as drawing all items
(`Producer.materialize_sound`, `Producer.Yields.materialize`).
-/

namespace XPath

/-! ## Fuel -/

theorem Turn.andThen_congr {t : Turn} {around : Producer → Producer}
    {item item' : Value → Producer → Session → Turn} {finish finish' : Session → Turn}
    (hitem : ∀ v r s, (item v r s).outcome ≠ .exhausted → item' v r s = item v r s)
    (hfinish : ∀ s, (finish s).outcome ≠ .exhausted → finish' s = finish s)
    (h : (t.andThen around item finish).outcome ≠ .exhausted) :
    t.andThen around item' finish' = t.andThen around item finish := by
  obtain ⟨outcome, rest, u⟩ := t
  rcases outcome with (_ | v) | topic | e | _
  · exact hfinish _ h
  · exact hitem _ _ _ h
  all_goals rfl

theorem Turn.outcome_ne_of_andThen {t : Turn} {around : Producer → Producer}
    {item : Value → Producer → Session → Turn} {finish : Session → Turn}
    (h : (t.andThen around item finish).outcome ≠ .exhausted) : t.outcome ≠ .exhausted := by
  intro ht
  simp [andThen, ht] at h

namespace Producer

/-- More fuel keeps an answer. -/
theorem next_succ {fuel : Nat} {p : Producer} {s : Session}
    (hn : (next h fuel p s).outcome ≠ .exhausted) : next h (fuel + 1) p s = next h fuel p s := by
  induction fuel generalizing p s with
  | zero => exact absurd rfl hn
  | succ fuel ih =>
    cases p with
    | done | fail | emit | pause => rfl
    | append first second =>
      rw [next, ih (Turn.outcome_ne_of_andThen hn)]
      exact Turn.andThen_congr (fun _ _ _ _ => rfl) (fun _ h => ih h) hn
    | ask q k =>
      rw [next] at hn ⊢
      rw [next]
      rcases hask : s.ask h q with ⟨_ | _ | _ | _, t⟩ <;> simp only [hask] at hn ⊢
      exact ih hn
    | fetch shared i k =>
      rw [next] at hn ⊢
      rw [next]
      cases hl : s.look shared i <;> simp only [hl] at hn ⊢
      case item | finish => exact ih hn
      case unread cell source =>
        have hs : (next h fuel source (s.detach cell)).outcome ≠ .exhausted := by
          intro hs
          simp only [hs, ne_eq, not_true_eq_false] at hn
        simp only [ih hs]
        generalize next h fuel source (s.detach cell) = t at hn ⊢
        obtain ⟨_ | _ | _ | _, rest, u⟩ := t
        next a => cases a <;> exact ih hn
        all_goals rfl
    | length shared k => exact ih hn
    | share source k => exact ih hn
    | gather step i kept source k =>
      rw [next, ih (Turn.outcome_ne_of_andThen hn)]
      refine Turn.andThen_congr (fun v r u hv => ?_) (fun _ h => ih h) hn
      cases hm : step i kept v <;> simp only [hm] at hv ⊢
      · exact ih hv
      · exact ih hv
    | forEach i source body finish =>
      rw [next, ih (Turn.outcome_ne_of_andThen hn)]
      exact Turn.andThen_congr (fun _ _ _ h => ih h) (fun _ h => ih h) hn
    | apply f c arguments k =>
      rw [next] at hn ⊢
      rw [next]
      cases hf : f.invoke c arguments <;> simp only [hf] at hn ⊢
      exact ih hn
    | call c => exact ih hn
    | log label items rest => exact ih hn
    | tick rest => exact ih hn

theorem next_le {fuel fuel' : Nat} {p : Producer} {s : Session} (hle : fuel ≤ fuel')
    (hn : (next h fuel p s).outcome ≠ .exhausted) : next h fuel' p s = next h fuel p s := by
  induction hle with
  | refl => rfl
  | step _ ih => rw [next_succ (ih ▸ hn), ih]

/-! ## Driving to the next item -/

end Producer

/-- The answer of a turn that gives one. -/
def Turn.answer? (t : Turn) : Option Draw :=
  match t.outcome with
  | .ready (some v) => some (.item v t.rest)
  | .ready none => some .finish
  | .failed e => some (.failed e)
  | .pending _ | .exhausted => none

theorem Turn.outcome_ne_of_answer {t : Turn} {d : Draw} (ht : t.answer? = some d) :
    t.outcome ≠ .exhausted := by
  intro he
  simp [answer?, he] at ht

namespace Producer

/-- Turns that end in an answer, with a wait after each of the others. -/
inductive Settles (h : Host) : Producer → Session → Draw → Session → Prop
  | answers {n p s d} :
      (next h n p s).answer? = some d → Settles h p s d (next h n p s).session
  | waits {n p s topic d u} :
      (next h n p s).outcome = .pending topic →
      Settles h (next h n p s).rest ((next h n p s).session.await topic) d u → Settles h p s d u

namespace Settles

variable {p q : Producer} {s s' t u : Session} {d d' : Draw}

/-- A step that does not suspend. -/
theorem step {m : Nat}
    (hstep : ∀ fuel, m ≤ fuel → next h (fuel + 2) p s = next h (fuel + 1) q s')
    (hq : Settles h q s' d u) : Settles h p s d u := by
  have hmax : ∀ fuel, (next h fuel q s').outcome ≠ .exhausted →
      next h (max m fuel + 2) p s = next h fuel q s' := fun fuel hn =>
    (hstep _ (Nat.le_max_left ..)).trans (next_le (by omega) hn)
  cases hq with
  | @answers fuel _ _ _ ha =>
    have hp := hmax fuel (Turn.outcome_ne_of_answer ha)
    rw [← hp] at ha ⊢
    exact .answers ha
  | @waits fuel _ _ _ _ _ hw hr =>
    have hp := hmax fuel (by simp [hw])
    rw [← hp] at hw hr
    exact .waits hw hr

/-- What is done with the answer of an inner producer. -/
def after (item : Nat → Value → Producer → Session → Turn) (finish : Nat → Session → Turn)
    (fuel : Nat) (t : Session) : Draw → Turn
  | .item v r => item fuel v r t
  | .finish => finish fuel t
  | .failed e => .failed e t

theorem andThen {around : Producer → Producer}
    {item : Nat → Value → Producer → Session → Turn} {finish : Nat → Session → Turn}
    (hnext : ∀ fuel p s, next h (fuel + 1) (around p) s =
      (next h fuel p s).andThen around (item fuel) (finish fuel))
    (hafter : ∀ fuel, after item finish (fuel + 1) t d = next h (fuel + 1) q t)
    (hp : Settles h p s d t) (hq : Settles h q t d' u) : Settles h (around p) s d' u := by
  induction hp with
  | @answers fuel p s d ha =>
    refine hq.step (m := fuel) fun fuel' hle => ?_
    have hn := next_le (Nat.le_succ_of_le hle) (Turn.outcome_ne_of_answer ha)
    rw [hnext, hn, ← hafter fuel']
    generalize next h fuel p s = turn at ha
    obtain ⟨(_ | v) | _ | _ | _, r, t⟩ := turn <;> cases ha <;> rfl
  | @waits fuel p s topic d u hw _ ih =>
    have hp : next h (fuel + 1) (around p) s =
        ⟨.pending topic, around (next h fuel p s).rest, (next h fuel p s).session⟩ := by
      rw [hnext, Turn.andThen, hw]
    have hr := ih hafter hq
    exact .waits (by rw [hp]) (by rw [hp]; exact hr)

/-- What a reader goes on with once the source of a cell has settled. -/
def resumed (i cell : Nat) (k : Option Value → Producer) (t : Session) :
    Draw → Producer × Session
  | .item v r => (.fetch (.cell cell) i k, t.keep cell v r)
  | .finish => (k none, t)
  | .failed e => (.fail e, t.spoil cell e)

/-- A reader advances the source of a cell, and puts it back at every wait. -/
theorem unread {i cell : Nat} {k : Option Value → Producer} {source : Producer}
    {items : Array Value} (hi : items[i]? = none)
    (hcell : s.cells[cell]? = some ⟨items, some source, none⟩)
    (hs : Settles h source (s.detach cell) d t)
    (hq : Settles h (resumed i cell k t d).1 (resumed i cell k t d).2 d' u) :
    Settles h (.fetch (.cell cell) i k) s d' u := by
  generalize hw : s.detach cell = w at hs
  have look : ∀ {s : Session} {source}, s.cells[cell]? = some ⟨items, some source, none⟩ →
      s.look (.cell cell) i = .unread cell source := fun hcell =>
    Session.look_eq_unread.2 ⟨rfl, items, hcell, hi⟩
  induction hs generalizing s with
  | @answers fuel source w d ha =>
    subst hw
    refine hq.step (m := fuel) fun fuel' hle => ?_
    have hn := next_le (Nat.le_succ_of_le hle) (Turn.outcome_ne_of_answer ha)
    rw [next, look hcell]
    simp only [hn]
    generalize next h fuel source (s.detach cell) = turn at ha
    obtain ⟨(_ | v) | _ | _ | _, r, t⟩ := turn <;> cases ha <;> rfl
  | @waits fuel source w topic d t hout _ ih =>
    subst hw
    have hp : next h (fuel + 1) (.fetch (.cell cell) i k) s =
        ⟨.pending topic, .fetch (.cell cell) i k,
          (next h fuel source (s.detach cell)).session.attach cell
            (next h fuel source (s.detach cell)).rest⟩ := by
      rw [next, look hcell]
      simp only [hout]
    have hidle := idle_next (h := h) fuel source _ (Session.idle_detach hcell)
    generalize next h fuel source (s.detach cell) = turn at hp hidle ih
    refine .waits (by rw [hp]) ?_
    rw [hp]
    refine ih (s := (turn.session.attach cell turn.rest).await topic) ?_ hq ?_
    · simp [Session.cells_attach, Array.getElem?_modify, hidle.1]
    · change ((turn.session.attach cell turn.rest).detach cell).await topic = _
      rw [Session.detach_attach hidle]

end Settles

/-- A drive settles from every session that agrees with a calm one. -/
def Reaches (h : Host) (p : Producer) (s : Session) (d : Draw) (t : Session) : Prop :=
  ∀ u : Session, u.calm = s → ∃ w : Session, w.calm = t ∧ Settles h p u d w

namespace Reaches

variable {p q : Producer} {s s' t : Session} {d : Draw}

/-- A step that does not suspend, from every session. -/
theorem step {g : Session → Session}
    (hstep : ∀ fuel u, u.calm = s → next h (fuel + 2) p u = next h (fuel + 1) q (g u))
    (hg : ∀ u, u.calm = s → (g u).calm = s') (hq : Reaches h q s' d t) : Reaches h p s d t := by
  intro u hu
  obtain ⟨w, hw, hs⟩ := hq _ (hg u hu)
  exact ⟨w, hw, hs.step (m := 0) fun fuel _ => hstep fuel u hu⟩

/-- An inner producer settles, and what follows it does. -/
theorem andThen {around : Producer → Producer}
    {item : Nat → Value → Producer → Session → Turn} {finish : Nat → Session → Turn} {d' : Draw}
    {t' : Session}
    (hnext : ∀ fuel p s, next h (fuel + 1) (around p) s =
      (next h fuel p s).andThen around (item fuel) (finish fuel))
    (hafter : ∀ fuel u, Settles.after item finish (fuel + 1) u d = next h (fuel + 1) q u)
    (hp : Reaches h p s d t) (hq : Reaches h q t d' t') : Reaches h (around p) s d' t' := by
  intro u hu
  obtain ⟨w, hw, hs⟩ := hp u hu
  obtain ⟨w', hw', hs'⟩ := hq w hw
  exact ⟨w', hw', hs.andThen hnext (fun fuel => hafter fuel w) hs'⟩

theorem emit {v : Value} {rest : Producer} : Reaches h (.emit v rest) s (.item v rest) s :=
  fun u hu => ⟨u, hu, .answers (n := 1) rfl⟩

theorem fail {e : Error} : Reaches h (.fail e) s (.failed e) s :=
  fun u hu => ⟨u, hu, .answers (n := 1) rfl⟩

theorem pause {rest : Producer} (hr : Reaches h rest s d t) : Reaches h (.pause rest) s d t := by
  intro u hu
  obtain ⟨w, hw, hs⟩ := hr (u.await none) hu
  exact ⟨w, hw, .waits (n := 1) rfl hs⟩

/-- The host answers after as many waits as it asks for. -/
theorem ask {r : Query} {k : r.Answer → Producer}
    (hq : ∀ u : Session, u.calm = s → u.remaining h r = 0 →
      ∃ w : Session, w.calm = t ∧ Settles h (.ask r k) u d w) : Reaches h (.ask r k) s d t := by
  intro u hu
  induction hn : u.remaining h r generalizing u with
  | zero => exact hq u hu hn
  | succ n ih =>
    have hp : next h 1 (.ask r k) u =
        ⟨.pending (some r.topic), .ask r k, { u with suspensions := u.suspensions + 1 }⟩ := by
      rw [next, u.ask_late (by omega)]
    let u' := Session.await { u with suspensions := u.suspensions + 1 } (some r.topic)
    have hr : u'.remaining h r = n := by
      have : u'.awaited.count r.topic = u.awaited.count r.topic + 1 := List.count_cons_self
      simp only [Session.remaining] at hn ⊢
      rw [this]
      change h.delay u.answered r - _ = n
      omega
    obtain ⟨w, hw, hs⟩ := ih u' hu hr
    exact ⟨w, hw, .waits (n := 1) (by rw [hp]) (by rw [hp]; exact hs)⟩

/-- A reader that computes a cell. -/
theorem unread {shared : Shared} {i cell : Nat} {k : Option Value → Producer} {source : Producer}
    {d' : Draw} {t' : Session} (hl : s.look shared i = .unread cell source)
    (hs : Reaches h source (s.detach cell) d t)
    (hq : Reaches h (Settles.resumed i cell k t d).1 (Settles.resumed i cell k t d).2 d' t') :
    Reaches h (.fetch shared i k) s d' t' := by
  obtain ⟨rfl, items, hcell, hi⟩ := Session.look_eq_unread.1 hl
  intro u hu
  obtain ⟨w, hw, hsource⟩ := hs (u.detach cell) (by rw [Session.calm_detach, hu])
  subst hu hw
  obtain ⟨w', hw', hrest⟩ := hq (Settles.resumed i cell k w d).2 (by cases d <;> rfl)
  refine ⟨w', hw', hsource.unread hi hcell ?_⟩
  cases d <;> exact hrest

end Reaches

theorem next_append {second : Unit → Producer} (fuel : Nat) (first : Producer) (s : Session) :
    next h (fuel + 1) (append first second) s = (next h fuel first s).andThen (append · second)
      (fun v first s => ⟨.ready (some v), append first second, s⟩)
      fun s => next h fuel (second ()) s := rfl

theorem next_gather {step : Nat → List Value → Value → Gathering} {i : Nat} {kept : List Value}
    {k : List Value → Producer} (fuel : Nat) (source : Producer) (s : Session) :
    next h (fuel + 1) (gather step i kept source k) s =
      (next h fuel source s).andThen (gather step i kept · k)
        (fun v source s =>
          match step i kept v with
          | .more kept => next h fuel (gather step (i + 1) kept source k) s
          | .enough kept => next h fuel (k kept) s
          | .fail e => .failed e s)
        fun s => next h fuel (k kept) s := rfl

theorem next_forEach {i : Nat} {body : Nat → Value → Producer} {finish : Nat → Producer}
    (fuel : Nat) (source : Producer) (s : Session) :
    next h (fuel + 1) (forEach i source body finish) s =
      (next h fuel source s).andThen (forEach i · body finish)
        (fun v source s =>
          next h fuel (append (body i v) fun _ => forEach (i + 1) source body finish) s)
        fun s => next h fuel (finish i) s := rfl

variable {p : Producer} {s t u : Session} {d : Draw}

/-- What is drawn without waiting is reached by waiting. -/
theorem Draws.reaches (hd : Draws h p s d t) : Reaches h p s d t := by
  induction hd with
  | done => exact fun u hu => ⟨u, hu, .answers (n := 1) rfl⟩
  | fail => exact .fail
  | emit => exact .emit
  | append_item _ ih =>
    exact ih.andThen next_append (fun _ _ => rfl) .emit
  | append_finish _ _ ih ih' => exact ih.andThen next_append (fun _ _ => rfl) ih'
  | append_failed _ ih => exact ih.andThen next_append (fun _ _ => rfl) .fail
  | @ask q k a s t d ha _ ih =>
    refine .ask fun u hu hr => ?_
    obtain ⟨w, hw, hs⟩ := ih (u.receive q) (by rw [Session.calm_receive, hu])
    refine ⟨w, hw, hs.step (m := 0) fun fuel _ => ?_⟩
    rw [next, u.ask_prompt hr, ha]
    rfl
  | @ask_failed q k e s ha =>
    refine .ask fun u hu hr => ?_
    obtain ⟨w, hw, hs⟩ := Reaches.fail (h := h) (u.receive q) hu
    refine ⟨w, hw, hs.step (m := 0) fun fuel _ => ?_⟩
    conv => lhs; rw [next, u.ask_prompt hr, ha]
    rfl
  | fetch_item hl _ ih | fetch_finish hl _ ih =>
    refine ih.step (g := id) (fun fuel u hu => ?_) fun _ hu => hu
    conv => lhs; rw [next, ← u.look_calm, hu, hl]
    rfl
  | fetch_failed hl =>
    refine Reaches.fail.step (g := id) (fun fuel u hu => ?_) fun _ hu => hu
    conv => lhs; rw [next, ← u.look_calm, hu, hl]
    rfl
  | unread_item hl _ _ ih ih' =>
    obtain ⟨rfl, -⟩ := Session.look_eq_unread.1 hl
    exact .unread hl ih ih'
  | unread_finish hl _ _ ih ih' => exact .unread hl ih ih'
  | unread_failed hl _ ih => exact .unread hl ih .fail
  | length _ ih =>
    refine ih.step (g := id) (fun fuel u hu => ?_) fun _ hu => hu
    rw [next, ← u.length?_calm, hu]
    rfl
  | @share source k s t d _ ih =>
    refine ih.step (g := fun u => (u.allocate source).2) (fun fuel u hu => ?_) fun u hu => ?_
    · rw [next, ← hu]
      rfl
    · rw [← hu]
      rfl
  | gather_more _ hm _ ih ih' =>
    refine ih.andThen next_gather (fun _ _ => ?_) ih'
    rw [Settles.after, hm]
  | gather_enough _ hm _ ih ih' =>
    refine ih.andThen next_gather (fun _ _ => ?_) ih'
    rw [Settles.after, hm]
  | gather_fail _ hm ih =>
    refine ih.andThen next_gather (fun _ _ => ?_) .fail
    rw [Settles.after, hm]
    rfl
  | gather_finish _ _ ih ih' => exact ih.andThen next_gather (fun _ _ => rfl) ih'
  | gather_failed _ ih => exact ih.andThen next_gather (fun _ _ => rfl) .fail
  | forEach_item _ _ ih ih' => exact ih.andThen next_forEach (fun _ _ => rfl) ih'
  | forEach_finish _ _ ih ih' => exact ih.andThen next_forEach (fun _ _ => rfl) ih'
  | forEach_failed _ ih => exact ih.andThen next_forEach (fun _ _ => rfl) .fail
  | apply hf _ ih =>
    refine ih.step (g := id) (fun fuel u hu => ?_) fun _ hu => hu
    conv => lhs; rw [next, hf]
    rfl
  | apply_failed hf =>
    refine Reaches.fail.step (g := id) (fun fuel u hu => ?_) fun _ hu => hu
    conv => lhs; rw [next, hf]
    rfl
  | call _ ih => exact ih.step (g := id) (fun _ _ _ => rfl) fun _ hu => hu
  | log _ ih => exact ih.step (g := (·.report _ _)) (fun _ _ _ => rfl) fun _ hu => hu ▸ rfl
  | pause _ ih => exact ih.pause
  | tick _ ih => exact ih.step (g := (·.tick)) (fun _ _ _ => rfl) fun _ hu => hu ▸ rfl

theorem Settles.draws (hp : Settles h p s d t) : Draws h p s.calm d t.calm := by
  induction hp with
  | @answers n p s d ha =>
    have hs := sound_next (h := h) n p s
    generalize next h n p s = turn at ha hs
    obtain ⟨(_ | v) | topic | e | _, rest, t⟩ := turn <;> cases ha <;> exact hs
  | @waits n p s topic d u hw _ ih =>
    have hs := sound_next (h := h) n p s
    rw [Sound, hw] at hs
    exact hs d u.calm ih

/-- A suspended turn leaves all that was to be drawn. -/
theorem Draws.of_pending {n : Nat} {topic : Option Topic} (hd : Draws h p s.calm d t)
    (hw : (next h n p s).outcome = .pending topic) :
    Draws h (next h n p s).rest (next h n p s).session.calm d t := by
  obtain ⟨w, rfl, hs⟩ := hd.reaches s rfl
  have hn : (next h n p s).outcome ≠ .exhausted := by rw [hw]; nofun
  -- The turn is that of the drive, which may have been made with other fuel.
  cases hs with
  | @answers n' _ _ _ ha =>
    have heq : next h n p s = next h n' p s :=
      (next_le (Nat.le_max_left n n') hn).symm.trans
        (next_le (Nat.le_max_right n n') (Turn.outcome_ne_of_answer ha))
    rw [← heq, Turn.answer?, hw] at ha
    cases ha
  | @waits n' _ _ topic' _ _ hw' hr =>
    have heq : next h n p s = next h n' p s :=
      (next_le (Nat.le_max_left n n') hn).symm.trans
        (next_le (Nat.le_max_right n n') (by rw [hw']; nofun))
    rw [heq]
    exact hr.draws

/-! ## Driving to the end -/

/-- The items of a producer, unless an error ends them. -/
def ended (items : List Value) : Option Error → Except Error (List Value)
  | none => .ok items
  | some e => .error e

/-- What is left to do after a draw. -/
def goOn (h : Host) (fuel : Nat) (drawn : List Value) (t : Session) :
    Draw → Option (Except Error (List Value) × Session)
  | .item v rest => materialize h fuel (v :: drawn) rest t
  | .finish => some (.ok drawn.reverse, t)
  | .failed e => some (.error e, t)

theorem materialize_answer {fuel : Nat} {drawn : List Value}
    (ha : (next h fuel p s).answer? = some d) :
    materialize h (fuel + 1) drawn p s = goOn h fuel drawn (next h fuel p s).session d := by
  rw [materialize]
  generalize next h fuel p s = turn at ha
  obtain ⟨(_ | v) | _ | _ | _, r, t⟩ := turn <;> cases ha <;> rfl

theorem materialize_wait {fuel : Nat} {drawn : List Value} {topic : Option Topic}
    (hw : (next h fuel p s).outcome = .pending topic) :
    materialize h (fuel + 1) drawn p s = materialize h fuel drawn (next h fuel p s).rest
      ((next h fuel p s).session.await topic) := by
  simp only [materialize, hw]

theorem materialize_succ {fuel : Nat} {drawn : List Value}
    {r : Except Error (List Value) × Session} (hm : materialize h fuel drawn p s = some r) :
    materialize h (fuel + 1) drawn p s = some r := by
  induction fuel generalizing drawn p s with
  | zero => cases hm
  | succ fuel ih =>
    have hn : (next h fuel p s).outcome ≠ .exhausted := by
      intro hn
      simp only [materialize, hn] at hm
      cases hm
    rw [materialize] at hm ⊢
    rw [next_succ hn]
    generalize next h fuel p s = turn at hm
    obtain ⟨(_ | v) | _ | _ | _, rest, t⟩ := turn
    case ready.some | pending => exact ih hm
    all_goals exact hm

theorem materialize_le {fuel fuel' : Nat} {drawn : List Value}
    {r : Except Error (List Value) × Session} (hle : fuel ≤ fuel')
    (hm : materialize h fuel drawn p s = some r) : materialize h fuel' drawn p s = some r := by
  induction hle with
  | refl => exact hm
  | step _ ih => exact materialize_succ ih

theorem Settles.materialize {drawn : List Value} {r : Except Error (List Value) × Session}
    {fuel : Nat} (hp : Settles h p s d t) (hr : goOn h fuel drawn t d = some r) :
    ∃ fuel, Producer.materialize h fuel drawn p s = some r := by
  induction hp with
  | @answers fuel' p s d ha =>
    refine ⟨max fuel fuel' + 1, ?_⟩
    have hn := next_le (Nat.le_max_right fuel fuel') (Turn.outcome_ne_of_answer ha)
    rw [materialize_answer (hn ▸ ha), hn]
    cases d with
    | item v rest => exact materialize_le (Nat.le_max_left ..) hr
    | finish | failed => exact hr
  | @waits fuel' p s topic d u hw _ ih =>
    obtain ⟨fuel, hm⟩ := ih hr
    refine ⟨max fuel fuel' + 1, ?_⟩
    have hn := next_le (p := p) (s := s) (h := h) (Nat.le_max_right fuel fuel') (by simp [hw])
    rw [materialize_wait (hn ▸ hw), hn]
    exact materialize_le (Nat.le_max_left ..) hm

theorem Yields.resume {rest : Producer} {vs : List Value} {e : Option Error}
    (hr : ∀ d u, Draws h rest t d u → Draws h p s d u) (hy : Yields h rest t vs e u) :
    Yields h p s vs e u := by
  cases hy with
  | finish hd => exact .finish (hr _ _ hd)
  | failed hd => exact .failed (hr _ _ hd)
  | item hd hy => exact .item (hr _ _ hd) hy

/-- The items that are driven out of a producer are those that it yields. -/
theorem materialize_sound {fuel : Nat} {drawn : List Value} {r : Except Error (List Value)}
    (hm : materialize h fuel drawn p s = some (r, u)) :
    ∃ vs e, Yields h p s.calm vs e u.calm ∧ r = ended (drawn.reverse ++ vs) e := by
  induction fuel generalizing drawn p s with
  | zero => cases hm
  | succ fuel ih =>
    have hs := sound_next (h := h) fuel p s
    rw [materialize] at hm
    generalize next h fuel p s = turn at hm hs
    obtain ⟨(_ | v) | topic | e | _, rest, t⟩ := turn
    · cases hm
      exact ⟨[], none, .finish hs, by simp [ended]⟩
    · obtain ⟨vs, e, hy, rfl⟩ := ih hm
      exact ⟨v :: vs, e, .item hs hy, by simp⟩
    · obtain ⟨vs, e, hy, rfl⟩ := ih hm
      exact ⟨vs, e, hy.resume hs, rfl⟩
    · cases hm
      exact ⟨[], some e, .failed hs, rfl⟩
    · cases hm

/-- The items that are collected without any wait are those that the producer yields. -/
theorem collect_sound {fuel : Nat} {drawn items : List Value}
    (hc : collect h fuel drawn p s = (.ready items, u)) :
    ∃ vs, Yields h p s.calm vs none u.calm ∧ items = drawn.reverse ++ vs := by
  induction fuel generalizing drawn p s with
  | zero => cases hc
  | succ fuel ih =>
    have hs := sound_next (h := h) fuel p s
    rw [collect] at hc
    generalize next h fuel p s = turn at hc hs
    obtain ⟨(_ | v) | topic | e | _, rest, t⟩ := turn
    case ready.some =>
      obtain ⟨vs, hy, rfl⟩ := ih hc
      exact ⟨v :: vs, .item hs hy, by simp⟩
    case ready.none =>
      cases hc
      exact ⟨[], .finish hs, by simp⟩
    all_goals cases hc

/-- What a producer yields is driven out of it, from every session and after any waits. -/
theorem Yields.materialize {vs : List Value} {e : Option Error} (hy : Yields h p s vs e t)
    (drawn : List Value) {u : Session} (hu : u.calm = s) :
    ∃ fuel w, w.calm = t ∧
      Producer.materialize h fuel drawn p u = some (ended (drawn.reverse ++ vs) e, w) := by
  induction hy generalizing drawn u with
  | finish hd =>
    obtain ⟨w, hw, hs⟩ := hd.reaches u hu
    obtain ⟨fuel, hm⟩ := hs.materialize (show goOn h 0 drawn w .finish = _ from rfl)
    exact ⟨fuel, w, hw, by simpa [ended] using hm⟩
  | failed hd =>
    obtain ⟨w, hw, hs⟩ := hd.reaches u hu
    obtain ⟨fuel, hm⟩ := hs.materialize (show goOn h 0 drawn w (.failed _) = _ from rfl)
    exact ⟨fuel, w, hw, hm⟩
  | @item p v rest s t vs e t' hd _ ih =>
    obtain ⟨w, hw, hs⟩ := hd.reaches u hu
    obtain ⟨fuel, w', hw', hm⟩ := ih (v :: drawn) hw
    obtain ⟨fuel, hm⟩ := hs.materialize (show goOn h fuel drawn w (.item v rest) = _ from hm)
    exact ⟨fuel, w', hw', by simpa using hm⟩

end Producer

end XPath
