import XPath.Proofs.Lazy.Requests

/-!
# Looking ahead

Looking at the items to come, waiting in the middle of it and giving it up change nothing of what is
delivered later, as long as the source does not fail (`Sequence.peeking`). An error that is met while
items are in the buffer is answered before they are: from then on the sequence is the list of what it
had buffered (`Sequence.Serves.leftover`), so that the error comes last only if there was nothing
(`Sequence.failed_terminal`).
-/

namespace XPath

open Producer

/-! ## Answers in the course of looking ahead -/

/-- The exchange is right where some answers have been given before: a suspension, or the answer that
belongs to the items to come. They are all the items there are, or enough to decide the answer.
`possible` are the answers to be had by asking for the next item alone. -/
def Exchange.Agrees (possible : List (Attempt (Option Value)) → Prop)
    (os : List (Attempt (Option Value))) (x : Exchange) : Prop :=
  (∃ topic, x.outcome = .pending topic) ∨
    ∃ us : List Value, x.outcome = x.request.answer us ∧
      (possible (os ++ us.map .item ++ [.done]) ∨
        possible (os ++ us.map .item) ∧ x.request.Decided us)

namespace Sequence

variable {h : Host} {p : Producer} {q q' : Sequence} {s t t' u : Session} {r : Request}
  {os : List (Attempt (Option Value))} {xs : List Exchange} {x : Exchange}

/-- Every exchange of a run is a request of its own. -/
theorem Serves.exchange {ys zs : List Exchange} (hrun : Serves h q s (ys ++ x :: zs) q' t) :
    ∃ fuel q₁ s₁ q₂ s₂, Serves h q s ys q₁ s₁ ∧
      q₁.serve h fuel s₁ x.request = (x.outcome, q₂, s₂) ∧ x.outcome ≠ .exhausted := by
  generalize hall : ys ++ x :: zs = all at hrun
  induction hrun generalizing zs with
  | start => simp at hall
  | wait _ _ ih => exact ih hall
  | request fuel hrun hq ho ih =>
    rcases split_concat hall.symm with ⟨rfl, rfl, -⟩ | ⟨zs, hxs⟩
    · exact ⟨fuel, _, _, _, _, hrun, hq, ho⟩
    · exact ih hxs.symm

theorem Stage.agrees {fuel : Nat} {possible : List (Attempt (Option Value)) → Prop}
    (hall : ∀ os, Responds h p s os → possible os) (hp : ∀ vs e t, ¬Yields h p s vs (some e) t)
    (hs : Stage h p s os q t) (hq : (q.serve h fuel t x.request).1 = x.outcome)
    (ho : x.outcome ≠ .exhausted) : x.Agrees possible os := by
  obtain ⟨r, o⟩ := x
  dsimp only at hq ho
  subst hq
  cases hs with
  | @underway given q t hs =>
    have hserved := served fuel r hs
    generalize q.serve h fuel t r = result at hserved ho
    have hgiven : ∀ us : List Value, given.map Attempt.item ++ us.map .item =
        (given ++ us).map .item := fun us => List.map_append.symm
    cases hserved with
    | exhausted => exact absurd rfl ho
    | pending => exact .inl ⟨_, rfl⟩
    | raised _ hy => exact absurd hy (hp _ _ _)
    | @answered q₁ t' hs hdone =>
      refine .inr ⟨q₁.buffer, rfl, ?_⟩
      rw [hgiven]
      rcases hdone with hsource | hdec
      · rw [hsource] at hs
        exact .inl (hall _ (Yields.responds hs 1))
      · exact .inr ⟨hall _ hs.responds, hdec⟩
  | ended n hy =>
    refine .inr ⟨[], congrArg Prod.fst (serve_ended _ rfl ho), .inl (hall _ ?_)⟩
    rw [List.map_nil, List.append_nil, List.append_assoc, ← List.replicate_succ']
    exact hy.responds (n + 1)
  | failed n hy => exact absurd hy (hp _ _ _)

/-! ## The buffer -/

theorem fill_length (n fuel : Nat) :
    (q.fill h (some n) fuel t).2.1.buffer.length ≤ max n q.buffer.length := by
  induction fuel generalizing q t with
  | zero => exact Nat.le_max_right ..
  | succ fuel ih =>
    rw [fill]
    split
    · exact Nat.le_max_right ..
    next hlt =>
      have hlt : q.buffer.length < n := by simpa using hlt
      have hbuffer := pull_buffer (h := h) fuel q t
      generalize q.pull h fuel t = result at hbuffer
      obtain ⟨(_ | v) | topic | e | _, q', t'⟩ := result <;> dsimp only at hbuffer ⊢
      case ready.some =>
        have hfill := ih (q := { q' with buffer := q'.buffer ++ [v] }) (t := t')
        simp only [List.length_append, List.length_singleton, hbuffer] at hfill ⊢
        omega
      all_goals
        rw [hbuffer]
        exact Nat.le_max_right ..

theorem peek_length {α : Type} (n fuel : Nat) (answer : List Value → Attempt α) :
    (q.peek h fuel n answer t).2.1.buffer.length ≤ max n q.buffer.length := by
  have hfill := fill_length (h := h) (q := q) (t := t) n fuel
  unfold peek
  generalize q.fill h (some n) fuel t = result at hfill
  obtain ⟨_ | _ | _ | _, q', t'⟩ := result <;> exact hfill

theorem truth_length {fuel : Nat} :
    (q.truth h fuel t).2.1.buffer.length ≤ max 2 q.buffer.length := by
  have hfirst := peek_length (h := h) (q := q) (t := t) 1 fuel fun buffer => .ready buffer.head?
  unfold truth first
  generalize q.peek h fuel 1 _ t = result at hfirst
  have hle : result.2.1.buffer.length ≤ max 2 q.buffer.length := by omega
  obtain ⟨(_ | v) | _ | _ | _, q', t'⟩ := result
  case ready.some =>
    have hpeek := peek_length (h := h) (q := q') (t := t') 2 fuel fun buffer =>
      .ofExcept (truthOf buffer)
    dsimp only at hle
    cases v with
    | node n => exact hle
    | _ => exact Nat.le_trans hpeek (Nat.max_le.2 ⟨Nat.le_max_left .., hle⟩)
  all_goals exact hle

theorem serve_length (fuel : Nat) (hr : r ≠ .drain) :
    (q.serve h fuel t r).2.1.buffer.length ≤ max 2 q.buffer.length := by
  cases r with
  | next =>
    obtain ⟨_ | ⟨v, rest⟩, source⟩ := q
    · have hbuffer := pull_buffer (h := h) fuel ⟨[], source⟩ t
      change (pull h fuel ⟨[], source⟩ t).2.1.buffer.length ≤ _
      rw [hbuffer]
      exact Nat.zero_le _
    · change rest.length ≤ max 2 (rest.length + 1)
      omega
  | first =>
    have hpeek := peek_length (h := h) (q := q) (t := t) 1 fuel fun buffer => .ready buffer.head?
    change (q.first h fuel t).2.1.buffer.length ≤ _
    unfold first
    omega
  | cardinality => exact peek_length ..
  | truth => exact truth_length
  | drain => exact absurd rfl hr

/-- Whoever does not ask for all items at once has at most two of them buffered. -/
theorem Serves.length_le (hrun : Serves h (.ofProducer p) s xs q t)
    (hd : ∀ x ∈ xs, x.request ≠ .drain) : q.buffer.length ≤ 2 := by
  induction hrun with
  | start => exact Nat.zero_le _
  | wait _ _ ih => exact ih hd
  | @request xs q s r o q' s' fuel _ hq _ ih =>
    have hle := ih fun x hx => hd x (List.mem_append_left _ hx)
    have hserve := serve_length (h := h) (q := q) (t := s) fuel (hd ⟨r, o⟩ (by simp))
    rw [hq] at hserve
    exact Nat.le_trans hserve (Nat.max_le.2 ⟨Nat.le_refl 2, hle⟩)

theorem Value.truth_error {v : Value} {e : Error} (hv : v.truth = .error e) :
    e.code = .FORG0006 := by
  unfold Value.truth at hv
  repeat' split at hv
  all_goals cases hv
  all_goals rfl

theorem truthOf_error {vs : List Value} {e : Error} (hv : truthOf vs = .error e) :
    e.code = .FORG0006 := by
  unfold truthOf at hv
  split at hv
  · cases hv
  · cases hv
  · exact Value.truth_error hv
  · cases hv
    rfl

/-- The answer for given items is an error only where they have no effective boolean value. -/
theorem answer_failed {vs : List Value} {e : Error} (ha : r.answer vs = .failed e) :
    r = .truth ∧ e.code = .FORG0006 := by
  cases r with
  | truth =>
    change Attempt.ofExcept (truthOf vs) = .failed e at ha
    cases ht : truthOf vs <;> rw [ht] at ha <;> cases ha
    exact ⟨rfl, truthOf_error ht⟩
  | _ => cases ha

/-- Looking ahead, waiting and giving up leave the answers to requests for the next item as they are
without them: such answers can be had by asking for nothing else, and whoever does so, as often, has
no others. What is seen by looking ahead is what is to come, or else that it has no effective boolean
value, and at most two items are buffered. -/
theorem peeking (hp : ∀ vs e t, ¬Yields h p u.calm vs (some e) t)
    (hrun : Serves h (.ofProducer p) u xs q t) (hd : ∀ x ∈ xs, x.request ≠ .drain) :
    (∃ q' t', Delivers h (.ofProducer p) u (Exchange.answers xs) q' t') ∧
    (∀ os q' t', Delivers h (.ofProducer p) u os q' t' →
      os.length = (Exchange.answers xs).length → os = Exchange.answers xs) ∧
    (∀ ys x zs, xs = ys ++ x :: zs →
      x.Agrees (fun os => ∃ q' t', Delivers h (.ofProducer p) u os q' t') (Exchange.answers ys)) ∧
    (∀ x ∈ xs, ∀ e, x.outcome = .failed e → x.request = .truth ∧ e.code = .FORG0006) ∧
    q.buffer.length ≤ 2 := by
  have hstage := hrun.stage hd (.inr hp)
  have hagrees : ∀ ys x zs, xs = ys ++ x :: zs →
      x.Agrees (fun os => ∃ q' t', Delivers h (.ofProducer p) u os q' t')
        (Exchange.answers ys) := by
    rintro ys x zs rfl
    obtain ⟨fuel, q₁, s₁, q₂, s₂, hrun, hq, ho⟩ := hrun.exchange
    have hstage := hrun.stage (fun y hy => hd y (List.mem_append_left _ hy)) (.inr hp)
    exact hstage.agrees (fun os hos => hos.delivers rfl) hp (congrArg Prod.fst hq) ho
  refine ⟨hstage.responds.delivers rfl, ?_, hagrees, ?_, hrun.length_le hd⟩
  · rintro os q' t' ⟨ys, hnext, rfl, hrun'⟩ hlen
    have hstage' := hrun'.stage (fun y hy => by rw [hnext y hy]; nofun) (.inl hnext)
    exact hstage'.responds.unique hstage.responds hlen
  · intro x hx e he
    obtain ⟨ys, zs, hxs⟩ := List.append_of_mem hx
    rcases hagrees ys x zs hxs with ⟨topic, hw⟩ | ⟨us, ha, -⟩
    · rw [he] at hw
      cases hw
    · exact answer_failed (ha.symm.trans he)

/-- Two items with a suspension before each of them and before the end. -/
def halting : Producer :=
  .pause (.emit (.integer 1) (.pause (.emit (.integer 2) (.pause .done))))

/-- A look ahead that stops half way, one that is given up, and one that finds no boolean value. -/
theorem peeking_halting :
    ∃ q t, Delivers .absent (.ofProducer halting) .empty
      [.item (.integer 1), .item (.integer 2), .done] q t := by
  have hp : ∀ vs e t, ¬Yields .absent halting Session.empty.calm vs (some e) t := by
    intro vs e t hy
    have hall : Yields .absent halting Session.empty.calm [.integer 1, .integer 2] none .empty :=
      .item (.pause .emit) (.item (.pause .emit) (.finish (.pause .done)))
    cases (hy.unique hall).2.1
  have hrun : Serves .absent (.ofProducer halting) .empty
      [⟨.cardinality, .pending none⟩, ⟨.cardinality, .pending none⟩,
        ⟨.first, .ready (some (.integer 1))⟩, ⟨.truth, .failed manyItems⟩, ⟨.next, .item (.integer 1)⟩,
        ⟨.cardinality, .pending none⟩, ⟨.next, .item (.integer 2)⟩, ⟨.next, .done⟩] ⟨[], none⟩ _ :=
    .request (l := [_, _, _, _, _, _, _]) 4 (.request (l := [_, _, _, _, _, _]) 4
      (.request (l := [_, _, _, _, _]) 4 (.request (l := [_, _, _, _]) 4
        (.request (l := [_, _, _]) 4 (.request (l := [_, _]) 4 (.request (l := [_]) 4
          (.wait none (.request (l := []) 4 .start rfl nofun)) rfl nofun) rfl nofun) rfl nofun)
        rfl nofun) rfl nofun) rfl nofun) rfl nofun
  exact (peeking hp hrun (by simp)).1

/-! ## Errors -/

theorem begins_buffer (vs : List Value) (k : Unit → Producer) :
    Begins h (.append (.ofList vs) k) s vs (.append .done k) s := by
  induction vs with
  | nil => exact .nil
  | cons v vs ih => exact .item (.append_item .emit) ih

/-- Any sequence stands where the list of its buffered items and then its source would have come
to. -/
theorem stands_source (q : Sequence) (hq : q.source = some p) :
    Stands h (.append (.ofList q.buffer) fun _ => p) t.calm ([] ++ q.buffer) q.source t := by
  rw [hq]
  refine ⟨_, _, begins_buffer q.buffer fun _ => p, fun d w =>
    ⟨fun hd => .append_finish .done hd, fun hd => ?_⟩⟩
  cases hd with
  | append_finish hd hd' =>
    cases hd
    exact hd'
  | append_item hd | append_failed hd => cases hd

/-- A request fails for the error that ends the source, or for what is in the buffer. -/
theorem serve_failed {fuel : Nat} {e : Error} (hq : q.serve h fuel t r = (.failed e, q', t')) :
    q'.source = none ∨ r.answer q'.buffer = .failed e := by
  cases hsource : q.source with
  | none =>
    have hended := serve_ended (h := h) (t := t) fuel (r := r) hsource (by rw [hq]; nofun)
    rw [hq] at hended
    obtain ⟨rfl, -⟩ := Prod.mk.inj (Prod.mk.inj hended).2
    exact .inl hsource
  | some p =>
    have hserved := served fuel r (stands_source (h := h) (t := t) q hsource)
    rw [hq] at hserved
    generalize ho : Attempt.failed e = o at hserved
    cases hserved with
    | exhausted | pending => cases ho
    | raised hnone => exact .inl hnone
    | @answered q₁ _ hs hdone =>
      obtain ⟨rfl, -⟩ := answer_failed ho.symm
      exact .inr rfl

/-- What some exchanges leave of a list of items. -/
def leftover (vs : List Value) (xs : List Exchange) : List Value :=
  xs.foldl (fun vs x => x.request.left vs) vs

/-- Without a source, a sequence is the list of what is in its buffer, and the session does not take
part. -/
theorem Serves.leftover (hrun : Serves h q t xs q' t') (hq : q.source = none) :
    q' = ⟨Sequence.leftover q.buffer xs, none⟩ ∧ t'.calm = t.calm ∧
      ∀ ys x zs, xs = ys ++ x :: zs →
        x.outcome = x.request.answer (Sequence.leftover q.buffer ys) := by
  induction hrun with
  | start =>
    obtain ⟨buffer, source⟩ := q
    cases hq
    exact ⟨rfl, rfl, by simp⟩
  | wait _ _ ih => exact ih
  | @request xs q₁ t₁ r o q₂ t₂ fuel _ hserve ho ih =>
    obtain ⟨rfl, hcalm, hall⟩ := ih
    have hended := serve_ended (h := h) (q := ⟨Sequence.leftover q.buffer xs, none⟩) (t := t₁)
      fuel (r := r) rfl (by rwa [hserve])
    rw [hserve] at hended
    obtain ⟨rfl, hrest⟩ := Prod.mk.inj hended
    obtain ⟨rfl, rfl⟩ := Prod.mk.inj hrest
    refine ⟨by simp [Sequence.leftover], hcalm, fun ys x zs hxs => ?_⟩
    rcases split_concat hxs with ⟨rfl, rfl, -⟩ | ⟨zs, hxs⟩
    · rfl
    · exact hall ys x zs hxs

theorem leftover_nil (xs : List Exchange) : leftover [] xs = [] := by
  induction xs with
  | nil => rfl
  | cons x xs ih =>
    have hleft : x.request.left [] = [] := by cases x.request <;> rfl
    rw [leftover, List.foldl_cons, hleft]
    exact ih

/-- An error that strikes when nothing is in the buffer, as when the next item has been asked for, is
terminal: from then on every request is answered as for a sequence without items. -/
theorem failed_terminal (fuel : Nat) {e : Error} {q'' : Sequence} {t'' : Session}
    (hq : q.serve h fuel t r = (.failed e, q', t')) (hb : r = .next ∨ q'.buffer = [])
    (hrun : Serves h q' t' xs q'' t'') :
    t''.calm = t'.calm ∧ ∀ x ∈ xs, x.outcome = x.request.answer [] := by
  have hbuffer : q'.buffer = [] := by
    rcases hb with rfl | hb
    · exact next_failed hq
    · exact hb
  have hsource : q'.source = none := by
    apply (serve_failed hq).resolve_right
    rw [hbuffer]
    cases r <;> nofun
  obtain ⟨-, hcalm, hall⟩ := hrun.leftover hsource
  refine ⟨hcalm, fun x hx => ?_⟩
  obtain ⟨ys, zs, hxs⟩ := List.append_of_mem hx
  have houtcome := hall ys x zs hxs
  rwa [hbuffer, leftover_nil] at houtcome

/-- An item and then an error. -/
def breaking : Producer := .emit (.integer 1) (.fail ⟨.FOER0000, "boom"⟩)

theorem failed_terminal_breaking :
    (ofProducer breaking).serve .absent 2 .empty .next =
      (.item (.integer 1), ⟨[], some (.fail ⟨.FOER0000, "boom"⟩)⟩, .empty) ∧
    serve .absent 2 ⟨[], some (.fail ⟨.FOER0000, "boom"⟩)⟩ .empty .next =
      (.failed ⟨.FOER0000, "boom"⟩, ⟨[], none⟩, .empty) ∧
    ∀ x ∈ [Exchange.mk .next .done, ⟨.drain, .ready []⟩], x.outcome = x.request.answer [] := by
  refine ⟨rfl, rfl, ?_⟩
  have hrun : Serves .absent ⟨[], none⟩ .empty [⟨.next, .done⟩, ⟨.drain, .ready []⟩] ⟨[], none⟩
      .empty := .request (l := [_]) 1 (.request (l := []) 1 .start rfl nofun) rfl nofun
  exact (failed_terminal (q := ⟨[], some (.fail ⟨.FOER0000, "boom"⟩)⟩) 2 rfl (.inl rfl)
    hrun).2

/-- The first item is delivered after the error that followed it has been answered. -/
theorem breaking_delivers : ∃ q t,
    (ofProducer breaking).serve .absent 4 .empty .cardinality =
      (.failed ⟨.FOER0000, "boom"⟩, q, t) ∧
    (q.serve .absent 4 t .next).1 = .item (.integer 1) ∧
    (q.serve .absent 4 t .drain).1 = .ready [.integer 1] := ⟨_, _, rfl, rfl, rfl⟩

end Sequence

end XPath
