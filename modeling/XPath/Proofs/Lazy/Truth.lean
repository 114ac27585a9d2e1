import XPath.Proofs.Lazy.Weighing

/-!
# The effective boolean value of what is to come

A sequence that is asked for its effective boolean value again and again, whatever has been asked of it
before and whatever is waited for in between, answers with that of all the items that have not been
delivered. It keeps them, and draws no more of them than decide (`Sequence.truth_undelivered`).
-/

namespace XPath

open Producer

/-! ## What has been delivered -/

/-- The items that an exchange takes out of the sequence. -/
def Exchange.given : Exchange → List Value
  | ⟨.next, .ready v⟩ => v.toList
  | ⟨.drain, .ready vs⟩ => vs
  | _ => []

/-- The items that have been taken out of the sequence. -/
def Exchange.delivered (xs : List Exchange) : List Value := xs.flatMap given

theorem Exchange.delivered_append (xs ys : List Exchange) :
    delivered (xs ++ ys) = delivered xs ++ delivered ys := List.flatMap_append

theorem Exchange.delivered_singleton (x : Exchange) : delivered [x] = x.given := List.flatMap_singleton ..

theorem Exchange.given_pending (r : Request) (topic : Option Topic) :
    given ⟨r, .pending topic⟩ = [] := by cases r <;> rfl

/-- What is not taken out is left in the buffer. -/
theorem Exchange.given_answer (r : Request) (vs : List Value) :
    given ⟨r, r.answer vs⟩ ++ r.left vs = vs := by
  cases r with
  | next => cases vs <;> rfl
  | drain => exact List.append_nil vs
  | first | cardinality | truth => rfl

namespace Sequence

variable {h : Host} {p : Producer} {q q' : Sequence} {s t t' u w : Session} {vs us : List Value}
  {xs : List Exchange} {o : Attempt Bool} {delays : List Delay}

/-- Whatever is asked of a sequence that does not fail, what has been delivered and what is in the buffer
are the items drawn so far. -/
theorem Serves.stands (hp : Yields h p u.calm vs none w)
    (hrun : Serves h (.ofProducer p) u xs q t) :
    Stands h p u.calm (Exchange.delivered xs ++ q.buffer) q.source t := by
  induction hrun with
  | start => exact .start
  | wait topic _ ih => exact ih.await topic
  | @request xs q s r o q' s' fuel _ hq ho ih =>
    have hserved := served fuel r ih
    rw [hq] at hserved
    rw [Exchange.delivered_append, Exchange.delivered_singleton]
    cases hserved with
    | exhausted => exact absurd rfl ho
    | pending hs => rwa [Exchange.given_pending, List.append_nil]
    | raised _ hy => cases (hp.unique hy).2.1
    | @answered q s hs =>
      rwa [List.append_assoc, Exchange.given_answer]

/-! ## Insisting -/

theorem Serves.awaitAll (hrun : Serves h q s xs q' t) (awaited : List (Option Topic)) :
    Serves h q s xs q' (t.awaitAll awaited) := by
  induction awaited generalizing t with
  | nil => exact hrun
  | cons topic awaited ih => exact ih (.wait topic hrun)

/-- To insist is to make requests that take nothing out of the sequence. -/
theorem Insists.serves (hi : Insists h q s delays o q' t) :
    ∃ ys q₁ s₁ fuel, Serves h q s ys q₁ s₁ ∧ Exchange.delivered ys = [] ∧
      q₁.truth h fuel s₁ = (o, q', t) ∧ o ≠ .exhausted := by
  induction hi with
  | last fuel hq ho => exact ⟨[], _, _, fuel, .start, rfl, hq, ho⟩
  | @again q q' q'' s t u o delay delays fuel hq _ ih =>
    obtain ⟨ys, q₁, s₁, fuel', hserves, hnone, hlast, ho⟩ := ih
    have hfirst : Serves h q s [⟨.truth, .pending delay.topic⟩] q' t := .single fuel hq nofun
    refine ⟨_, q₁, s₁, fuel', (hfirst.awaitAll delay.awaited).trans hserves, ?_, hlast, ho⟩
    rw [Exchange.delivered_append, hnone]
    rfl

/-- Whoever insists is told to wait, or is given the answer for the items in the buffer once they decide it
or are all that there is. -/
theorem Insists.answered (hp : Yields h p u.calm vs none w)
    (hrun : Serves h (.ofProducer p) u xs q t) (hi : Insists h q t delays o q' t') :
    Stands h p u.calm (Exchange.delivered xs ++ q'.buffer) q'.source t' ∧
      ((∃ topic, o = .pending topic) ∨ o = .ofExcept (truthOf q'.buffer) ∧
        (q'.source = none ∨ Request.Decided .truth q'.buffer)) := by
  obtain ⟨ys, q₁, s₁, fuel, hserves, hnone, hlast, ho⟩ := hi.serves
  have hstands := (hrun.trans hserves).stands hp
  rw [Exchange.delivered_append, hnone, List.append_nil] at hstands
  have hserved : Served h p u.calm (Exchange.delivered xs) .truth (o, q', t') :=
    hlast ▸ served_truth fuel hstands
  cases hserved with
  | exhausted => exact absurd rfl ho
  | pending hs => exact ⟨hs, .inl ⟨_, rfl⟩⟩
  | raised _ hy => cases (hp.unique hy).2.1
  | answered hs hdone => exact ⟨hs, .inr ⟨rfl, hdone⟩⟩

/-! ## How far the source is pulled -/

/-- A sequence with the item that has been pulled, if one has, in its buffer. -/
def push (q : Sequence) : Attempt (Option Value) → Sequence
  | .ready (some v) => { q with buffer := q.buffer ++ [v] }
  | _ => q

/-- The source is pulled and what is pulled is put into the buffer, each time with less than so many items
there, and suspensions are waited for. -/
inductive Peeks (h : Host) (n : Nat) : Sequence → Session → Sequence → Session → Prop
  | start {q : Sequence} {s : Session} : Peeks h n q s q s
  | wait {q q' : Sequence} {s t : Session} (topic : Option Topic) :
      Peeks h n q (s.await topic) q' t → Peeks h n q s q' t
  | pull {q q' q'' : Sequence} {s t u : Session} {o : Attempt (Option Value)} (fuel : Nat) :
      q.buffer.length < n → q.pull h fuel s = (o, q', t) → o ≠ .exhausted →
      Peeks h n (q'.push o) t q'' u → Peeks h n q s q'' u

theorem lt_reach_of_begins (hvs : vs <+: us) (hlt : vs.length < reach vs) : vs.length < reach us := by
  obtain ⟨rest, rfl⟩ := hvs
  by_cases hne : vs = []
  · subst hne
    unfold reach
    split <;> exact Nat.succ_pos _
  · rwa [reach_append hne]

/-- An attempt leaves what is in the buffer there. -/
theorem Weighs.keeps_buffer (hw : Weighs h q s o q' t) : q.buffer <+: q'.buffer := by
  induction hw with
  | decided => exact List.prefix_refl _
  | item fuel _ hpull _ ih =>
    rw [buffer_of_pull hpull] at ih
    exact (List.prefix_append _ _).trans ih
  | finish _ _ hpull | failed _ _ hpull | pending _ _ hpull =>
    exact buffer_of_pull hpull ▸ List.prefix_refl _

theorem Insists.keeps_buffer (hi : Insists h q s delays o q' t) : q.buffer <+: q'.buffer := by
  induction hi with
  | last fuel hq ho => exact (weighs_of_truth hq ho).keeps_buffer
  | again fuel hq _ ih => exact (weighs_of_truth hq nofun).keeps_buffer.trans ih

/-- An attempt at the effective boolean value pulls no more than decides it. -/
theorem Weighs.peeks {q'' : Sequence} (hw : Weighs h q s o q' t) (hus : q'.buffer <+: us)
    (hrest : Peeks h (reach us) q' t q'' u) : Peeks h (reach us) q s q'' u := by
  induction hw with
  | decided => exact hrest
  | item fuel hlt hpull hw ih =>
    have hbegins := (Weighs.item fuel hlt hpull hw).keeps_buffer.trans hus
    exact .pull fuel (lt_reach_of_begins hbegins hlt) hpull nofun (ih hus hrest)
  | finish fuel hlt hpull | failed fuel hlt hpull | pending fuel hlt hpull =>
    rw [buffer_of_pull hpull] at hus
    exact .pull fuel (lt_reach_of_begins hus hlt) hpull nofun hrest

theorem Peeks.awaitAll {n : Nat} {awaited : List (Option Topic)}
    (hp : Peeks h n q (s.awaitAll awaited) q' t) : Peeks h n q s q' t := by
  induction awaited generalizing s with
  | nil => exact hp
  | cons topic awaited ih => exact .wait topic (ih hp)

theorem Insists.peeks (hi : Insists h q s delays o q' t) (hus : q'.buffer <+: us) :
    Peeks h (reach us) q s q' t := by
  induction hi with
  | last fuel hq ho => exact (weighs_of_truth hq ho).peeks hus .start
  | again fuel hq hi ih =>
    exact (weighs_of_truth hq nofun).peeks (hi.keeps_buffer.trans hus) (ih hus).awaitAll

/-! ## The answer -/

/-- What is to come decides what a producer comes to that goes on with its effective boolean value. -/
theorem draws_weigh {source : Producer} {buffer : List Value} {e : Option Error}
    (hb : buffer.length < reach buffer) (hy : Yields h source s vs e t) :
    ∃ d u, Draws h (weigh buffer source fun b => .singleton (.boolean b)) s d u := by
  have hweighed : ∀ r s, ∃ d, Draws h (weighed (fun b => .singleton (.boolean b)) r) s d s := by
    intro r s
    cases r with
    | ok b => exact ⟨_, .emit⟩
    | error e => exact ⟨_, .fail⟩
  induction hy generalizing buffer with
  | @finish p s t hd =>
    obtain ⟨d, hk⟩ := hweighed (truthOf buffer) t
    refine ⟨d, t, .gather_finish hd ?_⟩
    rwa [List.reverse_reverse]
  | failed hd => exact ⟨_, _, .gather_failed hd⟩
  | @item p v rest s t vs e u hd _ ih =>
    by_cases hlt : (buffer ++ [v]).length < reach (buffer ++ [v])
    · obtain ⟨d, u, hd'⟩ := ih hlt
      refine ⟨d, u, .gather_more hd (by rw [truthStep_eq hb, if_pos hlt]) ?_⟩
      rwa [weigh, List.length_append, List.length_singleton] at hd'
    · obtain ⟨d, hk⟩ := hweighed (truthOf (buffer ++ [v])) t
      refine ⟨d, t, .gather_enough hd (by rw [truthStep_eq hb, if_neg hlt]) ?_⟩
      rwa [List.reverse_reverse]

/-- Whoever waits for every suspension is answered, if the producer comes to an end. -/
theorem exists_insists {e : Option Error} (hr : Remains h q.source t vs e w) :
    ∃ delays r q' t', (∀ delay ∈ delays, delay.awaited = [delay.topic]) ∧
      Insists h q t delays (.ofExcept r) q' t' := by
  obtain ⟨buffer, source⟩ := q
  by_cases hd : reach buffer ≤ buffer.length
  · exact ⟨[], _, _, _, by simp, .last 1 (truth_decided 0 hd) (ofExcept_ne_exhausted _)⟩
  · have hlt := Nat.lt_of_not_le hd
    cases source with
    | none =>
      obtain ⟨m, hm⟩ := (Weighs.finish (h := h) (q := ⟨buffer, none⟩) (s := t) 0 hlt rfl).truth
      exact ⟨[], _, _, _, by simp, .last _ (hm m (Nat.le_refl m)) (ofExcept_ne_exhausted _)⟩
    | some p =>
      obtain ⟨d, u, hdraw⟩ := draws_weigh hlt hr
      obtain ⟨w, -, hsettles⟩ := hdraw.reaches t rfl
      obtain ⟨delays, turn, hprompt, hdriven, ha, -⟩ := hsettles.driven
      obtain ⟨first, second, o, q', t', rfl, hi, he⟩ := (driven_weigh hlt).1 hdriven
      have hprompt' : ∀ delay ∈ first, delay.awaited = [delay.topic] := fun delay hdelay =>
        hprompt delay (List.mem_append_left _ hdelay)
      cases he with
      | @ready b => exact ⟨first, .ok b, q', t', hprompt', hi⟩
      | @failed e => exact ⟨first, .error e, q', t', hprompt', hi⟩
      | pending => cases ha

/-- Let any requests have been made of a sequence that comes to an end without an error, and let it be asked
for its effective boolean value again and again, whatever is waited for in between. It answers, if only every
suspension is waited for, and it answers with the effective boolean value of the list of all items that have
not been delivered, or with the error that this list has none. All these items are still to come
afterwards, and the source is only pulled as long as less than two of them are in the buffer, and not
at all once the first one is there and is a node. -/
theorem truth_undelivered (hp : Yields h p u.calm vs none w)
    (hrun : Serves h (.ofProducer p) u xs q t) :
    ∃ us, vs = Exchange.delivered xs ++ us ∧
      (∃ delays q' t', (∀ delay ∈ delays, delay.awaited = [delay.topic]) ∧
        Insists h q t delays (.ofExcept (truthOf us)) q' t') ∧
      ∀ delays o q' t', Insists h q t delays o q' t' →
        ((∃ topic, o = .pending topic) ∨ o = .ofExcept (truthOf us)) ∧
        (∃ rest, us = q'.buffer ++ rest ∧ Remains h q'.source t' rest none w) ∧
        Peeks h (reach us) q t q' t' := by
  obtain ⟨rest, hvs, hremains⟩ := (hrun.stands hp).remains hp
  rw [List.append_assoc] at hvs
  have hall : ∀ delays o q' t', Insists h q t delays o q' t' →
      ((∃ topic, o = .pending topic) ∨ o = .ofExcept (truthOf (q.buffer ++ rest))) ∧
      (∃ rest', q.buffer ++ rest = q'.buffer ++ rest' ∧ Remains h q'.source t' rest' none w) ∧
      Peeks h (reach (q.buffer ++ rest)) q t q' t' := by
    intro delays o q' t' hi
    obtain ⟨hstands, houtcome⟩ := hi.answered hp hrun
    obtain ⟨rest', hvs', hremains'⟩ := hstands.remains hp
    rw [hvs, List.append_assoc] at hvs'
    have hus : q.buffer ++ rest = q'.buffer ++ rest' := List.append_cancel_left hvs'
    refine ⟨houtcome.imp_right ?_, ⟨rest', hus, hremains'⟩, hi.peeks ⟨rest', hus.symm⟩⟩
    rintro ⟨rfl, hsource | hdecided⟩
    · rw [hsource] at hremains'
      rw [hus, hremains'.1, List.append_nil]
    · rw [hus]
      exact (hdecided rest').symm
  refine ⟨q.buffer ++ rest, hvs, ?_, hall⟩
  obtain ⟨delays, r, q', t', hprompt, hi⟩ := exists_insists hremains
  have hr : Attempt.ofExcept r = .ofExcept (truthOf (q.buffer ++ rest)) := by
    refine (hall _ _ _ _ hi).1.resolve_left ?_
    rintro ⟨topic, hw⟩
    exact pending_ne_ofExcept topic r hw.symm
  rw [hr] at hi
  exact ⟨delays, q', t', hprompt, hi⟩

/-- An item, and a string with a suspension before it and another one before the end. -/
def worded : Producer := .emit (.integer 1) (.pause (.emit (.string "x") (.pause .done)))

/-- One item has been delivered, and a look at the next ones has been given up. -/
theorem truth_undelivered_worded :
    ∃ q t delays q' t', Serves .absent (.ofProducer worded) .empty
        [⟨.next, .item (.integer 1)⟩, ⟨.cardinality, .pending none⟩] q t ∧
      Insists .absent q t delays (.ready true) q' t' := by
  have hp : Yields .absent worded Session.empty.calm [.integer 1, .string "x"] none .empty :=
    .item .emit (.item (.pause .emit) (.finish (.pause .done)))
  have hrun : Serves .absent (.ofProducer worded) .empty
      [⟨.next, .item (.integer 1)⟩, ⟨.cardinality, .pending none⟩] _ _ :=
    .request (l := [_]) 4 (.request (l := []) 4 .start rfl nofun) rfl nofun
  obtain ⟨us, hus, ⟨delays, q', t', -, hi⟩, -⟩ := truth_undelivered hp hrun
  have hus : [Value.integer 1] ++ [.string "x"] = [.integer 1] ++ us := hus
  obtain rfl := List.append_cancel_left hus
  exact ⟨_, _, delays, q', t', hrun, hi⟩

end Sequence

end XPath
