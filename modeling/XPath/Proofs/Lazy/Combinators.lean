import Mathlib.Data.List.Forall2
import XPath.Proofs.Lazy.Drawing

/-!
# Combinators

What is drawn from a compound producer, in terms of what is drawn from its parts: what is read of a
shared sequence goes to the continuation, and so do all items of a drained source; a performed task
hands on its result, and a deferred producer is the one that is built.
-/

namespace XPath

/-- The host that is asked with some access. -/
def Access.host (h : Host) : Access → Host
  | .live => h
  | .detached => .absent

namespace Producer

/-- One item of a shared sequence is read, or none past its end, and another session left behind. -/
inductive Reads (h : Host) (shared : Shared) (i : Nat) :
    Session → Option Value → Session → Prop
  | item {v s} : s.look shared i = .item v → Reads h shared i s (some v) s
  | finish {s} : s.look shared i = .finish → Reads h shared i s none s
  | unread_item {cell source source' v s t o u} :
      s.look shared i = .unread cell source →
      Draws h source (s.detach cell) (.item v source') t →
      Reads h shared i (t.keep cell v source') o u → Reads h shared i s o u
  | unread_finish {cell source s t} :
      s.look shared i = .unread cell source →
      Draws h source (s.detach cell) .finish t → Reads h shared i s none t

variable {h : Host} {p source : Producer} {s t : Session} {d : Draw}

/-- What draws the same at first yields the same. -/
theorem Yields.imp {q : Producer} {s' u : Session} {vs : List Value} {e : Option Error}
    (hpq : ∀ d t, Draws h p s d t → Draws h q s' d t) (hp : Yields h p s vs e u) :
    Yields h q s' vs e u := by
  cases hp with
  | finish hd => exact .finish (hpq _ _ hd)
  | failed hd => exact .failed (hpq _ _ hd)
  | item hd hy => exact .item (hpq _ _ hd) hy

theorem Yields.append {p : Producer} {k : Unit → Producer} {u : Session} {vs ws : List Value}
    {e : Option Error} (hp : Yields h p s vs none t) (hk : Yields h (k ()) t ws e u) :
    Yields h (.append p k) s (vs ++ ws) e u := by
  generalize he : (none : Option Error) = e' at hp
  induction hp with
  | finish hd => exact hk.imp fun _ _ => .append_finish hd
  | failed => cases he
  | item hd _ ih => exact .item (.append_item hd) (ih hk he)

/-- What fails is not gone beyond. -/
theorem Yields.append_failed {p : Producer} {k : Unit → Producer} {vs : List Value} {e : Error}
    (hp : Yields h p s vs (some e) t) : Yields h (.append p k) s vs (some e) t := by
  generalize he : some e = e' at hp
  induction hp with
  | finish => cases he
  | failed hd => exact .failed (.append_failed hd)
  | item hd _ ih => exact .item (.append_item hd) (ih he)

/-! ## An item for an item -/

/-- What every item gives rise to is given in the order of the items. -/
theorem Yields.flatMap_items {p : Producer} {body : Value → Producer} {vs ws : List Value} {e : Option Error}
    (hp : Yields h p s vs e t)
    (hbody : List.Forall₂ (fun v w => ∀ s, Draws h (body v) s (.item w .done) s) vs ws) :
    Yields h (.flatMap p body) s ws e t := by
  suffices ∀ i, Yields h (.forEach i p (fun _ v => body v) fun _ => .done) s ws e t from this 0
  induction hp generalizing ws with
  | finish hd =>
    cases hbody
    exact fun i => .finish (.forEach_finish hd .done)
  | failed hd =>
    cases hbody
    exact fun i => .failed (.forEach_failed hd)
  | item hd _ ih =>
    cases hbody with
    | cons hv hvs =>
      exact fun i => .item (.forEach_item hd (.append_item (hv _)))
        ((ih hvs (i + 1)).imp fun _ _ => .append_finish .done)

/-- The first item that gives rise to an error ends what is given. -/
theorem Yields.flatMap_failed {p : Producer} {body : Value → Producer} {v : Value}
    {before after ws : List Value} {e : Option Error} {err : Error}
    (hp : Yields h p s (before ++ v :: after) e t)
    (hbefore : List.Forall₂ (fun v w => ∀ s, Draws h (body v) s (.item w .done) s) before ws)
    (hv : ∀ s, Draws h (body v) s (.failed err) s) :
    ∃ u, Yields h (.flatMap p body) s ws (some err) u := by
  suffices ∀ i, ∃ u, Yields h (.forEach i p (fun _ v => body v) fun _ => .done) s ws (some err) u
    from this 0
  induction before generalizing p s ws with
  | nil =>
    cases hbefore
    cases hp with
    | item hd _ => exact fun i => ⟨_, .failed (.forEach_item hd (.append_failed (hv _)))⟩
  | cons b before ih =>
    cases hbefore with
    | cons hb hbefore =>
      cases hp with
      | item hd hp =>
        intro i
        obtain ⟨u, hu⟩ := ih hp hbefore (i + 1)
        exact ⟨u, .item (.forEach_item hd (.append_item (hb _))) (hu.imp fun _ _ => .append_finish .done)⟩

/-! ## Listed items -/

theorem Yields.ofList (vs : List Value) (s : Session) : Yields h (.ofList vs) s vs none s := by
  induction vs with
  | nil => exact .finish .done
  | cons v vs ih => exact .item .emit ih

theorem yields_ofList {vs ws : List Value} {e : Option Error} (hy : Yields h (ofList vs) s ws e t) :
    ws = vs ∧ e = none ∧ t = s :=
  hy.unique (.ofList vs s)

/-! ## Reading -/

/-- What is read of a shared sequence is fetched. -/
theorem Reads.fetch {shared : Shared} {i : Nat} {o : Option Value} {k : Option Value → Producer}
    {u : Session} (hr : Reads h shared i s o t) (hd : Draws h (k o) t d u) :
    Draws h (.fetch shared i k) s d u := by
  induction hr with
  | item hl => exact .fetch_item hl hd
  | finish hl => exact .fetch_finish hl hd
  | unread_item hl hs _ ih => exact .unread_item hl hs (ih hd)
  | unread_finish hl hs => exact .unread_finish hl hs hd

/-! ## Deferred producers -/

theorem Draws.of_deferred {build : Unit → Except Error Producer}
    (hd : Draws h (deferred build) s d t) : Draws h (ofExcept (build ())) s d t := by
  cases hd with
  | append_item hd | append_failed hd => cases hd
  | append_finish hd hd' => cases hd; exact hd'

theorem Begins.of_deferred {build : Unit → Except Error Producer} {q : Producer} {vs : List Value}
    (hb : Begins h (deferred build) s vs q t) :
    vs = [] ∨ Begins h (ofExcept (build ())) s vs q t := by
  cases hb with
  | nil => exact .inl rfl
  | item hd hb => exact .inr (.item hd.of_deferred hb)

/-! ## Questions -/

theorem Draws.of_ask {q : Query} {k : q.Answer → Producer} (hd : Draws h (Producer.ask q k) s d t) :
    (∃ a, h.answer q = .ok a ∧ Draws h (k a) s d t) ∨
      ∃ e, h.answer q = .error e ∧ d = .failed e ∧ t = s := by
  cases hd with
  | ask ha hd => exact .inl ⟨_, ha, hd⟩
  | ask_failed ha => exact .inr ⟨_, ha, rfl, rfl⟩

theorem Draws.of_fail {e : Error} (hd : Draws h (Producer.fail e) s d t) : d = .failed e ∧ t = s := by
  cases hd
  exact ⟨rfl, rfl⟩

/-- A task is performed at once, over the host that it has access to. -/
theorem Draws.of_perform {α : Type} {access : Access} {task : Task α} {next : α → Producer}
    (hd : Draws h (perform access task next) s d t) :
    (∃ a, task.run (access.host h) = .ok a ∧ Draws h (next a) s d t) ∨
      ∃ e, task.run (access.host h) = .error e ∧ d = .failed e ∧ t = s := by
  induction task with
  | pure a => exact .inl ⟨a, rfl, hd⟩
  | fail e => exact .inr ⟨e, rfl, hd.of_fail⟩
  | ask q k ih =>
    cases access with
    | detached => exact .inr ⟨_, rfl, hd.of_fail⟩
    | live =>
      rw [Access.host, Task.run]
      rcases hd.of_ask with ⟨a, ha, hd⟩ | ⟨e, he, hd⟩
      · rw [ha]
        exact ih a hd
      · rw [he]
        exact .inr ⟨e, rfl, hd⟩

/-- A task that succeeds hands on its result. -/
theorem Draws.perform {α : Type} {access : Access} {task : Task α} {a : α} {next : α → Producer}
    (ha : task.run (access.host h) = .ok a) (hd : Draws h (next a) s d t) :
    Draws h (.perform access task next) s d t := by
  induction task with
  | pure b =>
    cases ha
    exact hd
  | fail e => cases ha
  | ask q k ih =>
    cases access with
    | detached => cases ha
    | live =>
      rw [Access.host, Task.run] at ha
      cases hq : h.answer q with
      | error e => simp [hq] at ha
      | ok b =>
        rw [hq] at ha
        exact .ask hq (ih b ha)

/-! ## Gathered items -/

/-- What is drawn from a gathering is drawn from its continuation, unless it fails. -/
theorem Draws.of_gather {step : Nat → List Value → Value → Gathering} {i : Nat}
    {kept : List Value} {k : List Value → Producer} (hd : Draws h (gather step i kept source k) s d t) :
    (∃ kept' u, Draws h (k kept') u d t) ∨ ∃ e, d = .failed e := by
  generalize hp : gather step i kept source k = p at hd
  induction hd generalizing i kept source with
  | gather_more _ _ _ _ ih =>
    cases hp
    exact ih rfl
  | gather_enough _ _ hd | gather_finish _ hd =>
    cases hp
    exact .inl ⟨_, _, hd⟩
  | gather_fail | gather_failed => exact .inr ⟨_, rfl⟩
  | _ => cases hp

/-- A gathering that keeps every item it draws hands on what its source begins with. -/
theorem Draws.of_gather_begins {step : Nat → List Value → Value → Gathering} {i : Nat}
    {k : List Value → Producer}
    (hstep : ∀ i kept v kept', step i kept v = .more kept' ∨ step i kept v = .enough kept' →
      kept' = v :: kept)
    (hd : Draws h (gather step i [] source k) s d t) :
    (∃ kept q u w, Begins h source s kept.reverse q u ∧ Draws h (k kept) w d t) ∨
      ∃ e, d = .failed e := by
  -- In the course of the gathering some items have been drawn before, by `source` in `s`.
  suffices ∀ i kept source' s', Begins h source s kept.reverse source' s' →
      Draws h (gather step i kept source' k) s' d t →
      (∃ kept q u w, Begins h source s kept.reverse q u ∧ Draws h (k kept) w d t) ∨
        ∃ e, d = .failed e from this i [] source s .nil hd
  clear hd
  intro i kept source' s' hb hd
  have kept_begins : ∀ {i kept v kept' source' source'' s' s''},
      Begins h source s kept.reverse source' s' → Draws h source' s' (.item v source'') s'' →
      step i kept v = .more kept' ∨ step i kept v = .enough kept' →
      Begins h source s kept'.reverse source'' s'' := by
    intro i kept v kept' source' source'' s' s'' hb hd hm
    rw [hstep i kept v kept' hm, List.reverse_cons]
    exact hb.snoc hd
  generalize hp : gather step i kept source' k = p at hd
  induction hd generalizing i kept source' with
  | gather_more hd hm _ _ ih =>
    cases hp
    exact ih _ _ _ (kept_begins hb hd (.inl hm)) rfl
  | gather_enough hd hm hd' =>
    cases hp
    exact .inl ⟨_, _, _, _, kept_begins hb hd (.inr hm), hd'⟩
  | gather_finish _ hd' =>
    cases hp
    exact .inl ⟨_, _, _, _, hb, hd'⟩
  | gather_fail | gather_failed => exact .inr ⟨_, rfl⟩
  | _ => cases hp

/-- A truth value is that of the items that its source begins with. -/
theorem Draws.of_truth {next : Bool → Producer} (hd : Draws h (truth source next) s d t) :
    (∃ vs b q u w, Begins h source s vs q u ∧ truthOf vs = .ok b ∧ Draws h (next b) w d t) ∨
      ∃ e, d = .failed e := by
  have hstep : ∀ (kept : List Value) (v : Value) (kept' : List Value),
      truthStep kept v = .more kept' ∨ truthStep kept v = .enough kept' → kept' = v :: kept := by
    intro kept v kept' hm
    unfold truthStep at hm
    split at hm <;> simp_all
  rcases hd.of_gather_begins fun _ => hstep with ⟨kept, q, u, w, hb, hd⟩ | he
  · split at hd
    · next b hv => exact .inl ⟨kept.reverse, b, q, u, w, hb, hv, hd⟩
    · exact .inr ⟨_, hd.of_fail.1⟩
  · exact .inr he

/-- All items of a drained source go to the continuation. -/
theorem Draws.of_drain {next : List Value → Producer} (hd : Draws h (drain source next) s d t) :
    (∃ vs u, Yields h source s vs none u ∧ Draws h (next vs) u d t) ∨
      ∃ vs e, Yields h source s vs (some e) t ∧ d = .failed e := by
  suffices ∀ {i kept source s}, Draws h (gather (fun _ kept v => .more (v :: kept)) i kept source
      fun kept => next kept.reverse) s d t →
      (∃ vs u, Yields h source s vs none u ∧ Draws h (next (kept.reverse ++ vs)) u d t) ∨
        ∃ vs e, Yields h source s vs (some e) t ∧ d = .failed e by
    simpa using this hd
  clear hd
  intro i kept source s hd
  generalize hp : gather _ i kept source _ = p at hd
  induction hd generalizing i kept source with
  | gather_more hs hm _ _ ih =>
    cases hp
    cases hm
    rcases ih rfl with ⟨vs, u, hy, hd⟩ | ⟨vs, e, hy, hd⟩
    · exact .inl ⟨_, u, .item hs hy, by simpa using hd⟩
    · exact .inr ⟨_, e, .item hs hy, hd⟩
  | gather_enough _ hm | gather_fail _ hm =>
    cases hp
    cases hm
  | gather_finish hs hd =>
    cases hp
    exact .inl ⟨[], _, .finish hs, by simpa using hd⟩
  | gather_failed hs =>
    cases hp
    exact .inr ⟨[], _, .failed hs, rfl⟩
  | _ => cases hp

theorem Yields.drain {next : List Value → Producer} {vs : List Value} {u : Session}
    (hs : Yields h source s vs none u) (hd : Draws h (next vs) u d t) :
    Draws h (.drain source next) s d t := by
  suffices ∀ {i kept source s vs}, Yields h source s vs none u →
      Draws h (next (kept.reverse ++ vs)) u d t →
      Draws h (gather (fun _ kept v => .more (v :: kept)) i kept source
        fun kept => next kept.reverse) s d t from this hs hd
  clear hs hd
  intro i kept source s vs hs
  generalize he : (none : Option Error) = e at hs
  induction hs generalizing i kept with
  | finish hs =>
    intro hd
    exact .gather_finish hs (by simpa using hd)
  | failed => cases he
  | item hs _ ih =>
    intro hd
    exact .gather_more hs rfl (ih he (by simpa using hd))

/-! ## Producers with listed items -/

/-- In every session the producer gives the listed items, unless it fails on the way, and leaves the
session as it is. -/
def Lists (h : Host) : List Value → Producer → Prop
  | [], p => ∀ s d t, Draws h p s d t → t = s ∧ (d = .finish ∨ ∃ e, d = .failed e)
  | v :: vs, p => ∀ s d t, Draws h p s d t →
      t = s ∧ ((∃ q, d = .item v q ∧ Lists h vs q) ∨ ∃ e, d = .failed e)

namespace Lists

variable {vs ws : List Value} {v : Value} {rest : Producer}

theorem of_draws (hp : ∀ s d t, Draws h p s d t →
    (∃ q, Lists h vs q ∧ Draws h q s d t) ∨ (∃ e, d = .failed e) ∧ t = s) : Lists h vs p := by
  cases vs with
  | nil =>
    intro s d t hd
    rcases hp s d t hd with ⟨q, hq, hd⟩ | ⟨he, ht⟩
    · exact hq s d t hd
    · exact ⟨ht, .inr he⟩
  | cons v vs =>
    intro s d t hd
    rcases hp s d t hd with ⟨q, hq, hd⟩ | ⟨he, ht⟩
    · exact hq s d t hd
    · exact ⟨ht, .inr he⟩

theorem done : Lists h [] .done := by
  intro s d t hd
  cases hd
  exact ⟨rfl, .inl rfl⟩

theorem fail {e : Error} : Lists h vs (.fail e) := of_draws fun _ _ _ hd =>
  .inr ⟨⟨e, hd.of_fail.1⟩, hd.of_fail.2⟩

theorem emit (hr : Lists h vs rest) : Lists h (v :: vs) (.emit v rest) := by
  intro s d t hd
  cases hd
  exact ⟨rfl, .inl ⟨rest, rfl, hr⟩⟩

theorem ofList : ∀ vs, Lists h vs (.ofList vs)
  | [] => done
  | _ :: vs => (ofList vs).emit

end Lists

end Producer

end XPath
