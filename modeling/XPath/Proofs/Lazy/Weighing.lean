import XPath.Proofs.Lazy.Requests

/-!
# Weighing

To find the effective boolean value of what is to come, items are drawn until enough of them have been
seen: one if it is a node, else two (`reach`). `Sequence.Weighs` is one attempt at that, rule by rule and
without fuel; a sequence that is asked makes such an attempt (`Sequence.weighs_of_truth`,
`Sequence.Weighs.truth`), and so does a producer that goes on with the value (`Producer.turns_weigh`). So a
producer that goes on with the value is driven as a caller would resume the sequence until it answers,
and then what follows is driven (`Producer.driven_weigh`).
-/

namespace XPath

open Producer

/-- How many items have to be seen before the effective boolean value is known. -/
def reach : List Value → Nat
  | .node _ :: _ => 1
  | _ => 2

theorem reach_le (vs : List Value) : reach vs ≤ 2 := by
  unfold reach
  split <;> decide

/-- What is to come after some items does not matter for how many have to be seen. -/
theorem reach_append {vs : List Value} (hv : vs ≠ []) (ws : List Value) :
    reach (vs ++ ws) = reach vs := by
  obtain ⟨v, vs, rfl⟩ := List.exists_cons_of_ne_nil hv
  cases v <;> rfl

/-- Not enough items are there if there are none, or one that is no node. -/
theorem undecided_cases {vs : List Value} (hv : vs.length < reach vs) :
    vs = [] ∨ ∃ v, vs = [v] ∧ ∀ n, v ≠ .node n := by
  match vs, hv with
  | [], _ => exact .inl rfl
  | [v], hv =>
    refine .inr ⟨v, rfl, ?_⟩
    rintro n rfl
    exact absurd hv (Nat.lt_irrefl 1)
  | v :: w :: vs, hv =>
    have hle := Nat.lt_of_lt_of_le hv (reach_le _)
    simp only [List.length_cons] at hle
    omega

namespace Sequence

/-! ## One attempt -/

/-- One attempt at the effective boolean value of a sequence: the source is pulled until enough items are
in the buffer. -/
inductive Weighs (h : Host) : Sequence → Session → Attempt Bool → Sequence → Session → Prop
  | decided {q : Sequence} {s : Session} :
      reach q.buffer ≤ q.buffer.length → Weighs h q s (.ofExcept (truthOf q.buffer)) q s
  | item {q q' q'' : Sequence} {s t u : Session} {v : Value} {o : Attempt Bool} (fuel : Nat) :
      q.buffer.length < reach q.buffer → q.pull h fuel s = (.item v, q', t) →
      Weighs h { q' with buffer := q'.buffer ++ [v] } t o q'' u → Weighs h q s o q'' u
  | finish {q q' : Sequence} {s t : Session} (fuel : Nat) :
      q.buffer.length < reach q.buffer → q.pull h fuel s = (.done, q', t) →
      Weighs h q s (.ofExcept (truthOf q.buffer)) q' t
  | failed {q q' : Sequence} {s t : Session} {e : Error} (fuel : Nat) :
      q.buffer.length < reach q.buffer → q.pull h fuel s = (.failed e, q', t) →
      Weighs h q s (.failed e) q' t
  | pending {q q' : Sequence} {s t : Session} {topic : Option Topic} (fuel : Nat) :
      q.buffer.length < reach q.buffer → q.pull h fuel s = (.pending topic, q', t) →
      Weighs h q s (.pending topic) q' t

variable {h : Host} {q q' : Sequence} {s t : Session} {o : Attempt Bool}

/-- Enough items are in the buffer. -/
theorem truth_decided (fuel : Nat) (hq : reach q.buffer ≤ q.buffer.length) :
    q.truth h (fuel + 1) s = (.ofExcept (truthOf q.buffer), q, s) := by
  obtain ⟨buffer, source⟩ := q
  rcases buffer with _ | ⟨v, _ | ⟨w, rest⟩⟩
  · cases hq
  · cases v with
    | node n => rfl
    | _ => exact absurd hq (Nat.not_succ_le_self 1)
  · cases v <;> rfl

/-- A first item that is no node is looked at together with a second one. -/
theorem truth_eq_peek {v : Value} {rest : List Value} {source : Option Producer} (fuel : Nat)
    (hv : ∀ n, v ≠ .node n) :
    truth h (fuel + 1) ⟨v :: rest, source⟩ s =
      peek h (fuel + 1) 2 (fun buffer => .ofExcept (truthOf buffer)) ⟨v :: rest, source⟩ s := by
  cases v with
  | node n => exact absurd rfl (hv n)
  | _ => rfl

/-- One more item has to be seen. -/
theorem truth_pull (fuel : Nat) (hq : q.buffer.length < reach q.buffer) :
    q.truth h (fuel + 1) s =
      match q.pull h fuel s with
      | (.ready (some v), q, s) =>
        truth h (fuel + 1) { q with buffer := q.buffer ++ [v] } s
      | (.ready none, q, s) => (.ofExcept (truthOf q.buffer), q, s)
      | (.failed e, q, s) => (.failed e, q, s)
      | (.pending topic, q, s) => (.pending topic, q, s)
      | (.exhausted, q, s) => (.exhausted, q, s) := by
  have hzero : ∀ {v q' t}, q.pull h 0 s ≠ (.item v, q', t) := by
    intro v q' t hpull
    unfold pull at hpull
    split at hpull <;> cases hpull
  have hbuffer := pull_buffer (h := h) fuel q s
  obtain ⟨buffer, source⟩ := q
  rcases undecided_cases hq with rfl | ⟨v, rfl, hnode⟩
  · rw [truth, first, peek, fill, if_neg (by simp)]
    generalize hpull : pull h fuel ⟨[], source⟩ s = result at hbuffer
    obtain ⟨(_ | v) | topic | e | _, ⟨_, source'⟩, t⟩ := result <;> cases hbuffer
    case inl.ready.some.refl =>
      cases fuel with
      | zero => exact absurd hpull hzero
      | succ fuel => cases v <;> simp [fill, truth, first, peek]
    all_goals rfl
  · rw [truth_eq_peek fuel hnode, peek, fill, if_neg (by simp)]
    generalize hpull : pull h fuel ⟨[v], source⟩ s = result at hbuffer
    obtain ⟨(_ | w) | topic | e | _, ⟨_, source'⟩, t⟩ := result <;> cases hbuffer
    case inr.ready.some.refl =>
      cases fuel with
      | zero => exact absurd hpull hzero
      | succ fuel =>
        change _ = truth h (fuel + 1 + 1) ⟨[v, w], source'⟩ t
        rw [truth_eq_peek _ hnode]
        rfl
    all_goals rfl

theorem buffer_of_pull {fuel : Nat} {o : Attempt (Option Value)}
    (hpull : q.pull h fuel s = (o, q', t)) : q'.buffer = q.buffer := by
  have hbuffer := pull_buffer (h := h) fuel q s
  rwa [hpull] at hbuffer

/-- A pull is not changed by more fuel. -/
theorem pull_le {fuel fuel' : Nat} (hle : fuel ≤ fuel') (ho : (q.pull h fuel s).1 ≠ .exhausted) :
    q.pull h fuel' s = q.pull h fuel s := by
  obtain ⟨buffer, _ | p⟩ := q
  · rfl
  · have hne : (Producer.next h fuel p s).outcome ≠ .exhausted := by
      intro he
      simp only [pull, he, ne_eq, not_true_eq_false] at ho
    simp only [pull, next_le hle hne]

/-- What a turn leaves of the source of a sequence. -/
def sourceLeft (rest : Producer) : Attempt (Option Value) → Option Producer
  | .ready none | .failed _ => none
  | _ => some rest

theorem pull_of_turn {p rest : Producer} {buffer : List Value} {fuel : Nat}
    {o : Attempt (Option Value)} (hturn : p.next h fuel s = ⟨o, rest, t⟩) :
    pull h fuel ⟨buffer, some p⟩ s = (o, ⟨buffer, sourceLeft rest o⟩, t) := by
  simp only [pull, hturn]
  obtain (_ | v) | topic | e | _ := o <;> rfl

/-- A pull is a turn of the source. -/
theorem turn_of_pull {p : Producer} {buffer : List Value} {m : Nat}
    {o : Attempt (Option Value)}
    (hpull : pull h m ⟨buffer, some p⟩ s = (o, q', t)) (ho : o ≠ .exhausted) :
    ∃ rest, (∀ fuel, m ≤ fuel → p.next h fuel s = ⟨o, rest, t⟩) ∧
      q' = ⟨buffer, sourceLeft rest o⟩ := by
  cases hturn : p.next h m s with
  | mk outcome rest u =>
    rw [pull_of_turn hturn] at hpull
    cases hpull
    refine ⟨rest, fun fuel hle => ?_, rfl⟩
    rw [next_le hle (by rwa [hturn]), hturn]

/-- Whoever is asked makes an attempt. -/
theorem weighs_of_truth {fuel : Nat} (hq : q.truth h fuel s = (o, q', t)) (ho : o ≠ .exhausted) :
    Weighs h q s o q' t := by
  cases fuel with
  | zero =>
    cases hq
    exact absurd rfl ho
  | succ fuel =>
    induction hn : 2 - q.buffer.length using Nat.strongRecOn generalizing q s with
    | ind n ih =>
      by_cases hd : reach q.buffer ≤ q.buffer.length
      · rw [truth_decided fuel hd] at hq
        cases hq
        exact .decided hd
      · have hlt := Nat.lt_of_not_le hd
        rw [truth_pull fuel hlt] at hq
        generalize hpull : q.pull h fuel s = result at hq
        obtain ⟨(_ | v) | topic | e | _, q₁, s₁⟩ := result <;> dsimp only at hq
        case ready.some =>
          refine .item fuel hlt hpull (ih _ ?_ hq rfl)
          have hle := reach_le q.buffer
          rw [buffer_of_pull hpull, List.length_append, List.length_singleton]
          omega
        all_goals cases hq
        · rw [buffer_of_pull hpull]
          exact .finish fuel hlt hpull
        · exact .pending fuel hlt hpull
        · exact .failed fuel hlt hpull
        · exact absurd rfl ho

/-- Every attempt is what asking comes to, with fuel enough. -/
theorem Weighs.truth (hw : Weighs h q s o q' t) :
    ∃ m, ∀ fuel, m ≤ fuel → q.truth h (fuel + 1) s = (o, q', t) := by
  induction hw with
  | decided hd => exact ⟨0, fun fuel _ => truth_decided fuel hd⟩
  | item m hlt hpull _ ih =>
    obtain ⟨m', hm'⟩ := ih
    refine ⟨max m m', fun fuel hle => ?_⟩
    rw [truth_pull fuel hlt, pull_le (Nat.le_trans (Nat.le_max_left ..) hle) (by simp [hpull]),
      hpull]
    exact hm' fuel (Nat.le_trans (Nat.le_max_right ..) hle)
  | @finish q q' s t m hlt hpull =>
    refine ⟨m, fun fuel hle => ?_⟩
    rw [truth_pull fuel hlt, pull_le hle (by simp [hpull]), hpull]
    exact congrArg (fun vs => (Attempt.ofExcept (truthOf vs), q', t)) (buffer_of_pull hpull)
  | failed m hlt hpull | pending m hlt hpull =>
    refine ⟨m, fun fuel hle => ?_⟩
    rw [truth_pull fuel hlt, pull_le hle (by simp [hpull]), hpull]

theorem ofExcept_ne_exhausted (r : Except Error Bool) : Attempt.ofExcept r ≠ .exhausted := by
  cases r <;> simp [Attempt.ofExcept]

theorem pending_ne_ofExcept (topic : Option Topic) (r : Except Error Bool) :
    Attempt.pending topic ≠ .ofExcept r := by
  cases r <;> simp [Attempt.ofExcept]

theorem Weighs.ne_exhausted (hw : Weighs h q s o q' t) : o ≠ .exhausted := by
  induction hw with
  | decided => exact ofExcept_ne_exhausted _
  | item _ _ _ _ ih => exact ih
  | finish => exact ofExcept_ne_exhausted _
  | failed | pending => simp

/-- An attempt that is suspended leaves a source, and not enough items. -/
theorem Weighs.suspended {topic : Option Topic} (hw : Weighs h q s (.pending topic) q' t) :
    ∃ buffer source, q' = ⟨buffer, some source⟩ ∧ buffer.length < reach buffer := by
  generalize ho : Attempt.pending topic = o at hw
  induction hw with
  | decided => exact absurd ho (pending_ne_ofExcept _ _)
  | item _ _ _ _ ih => exact ih ho
  | finish => exact absurd ho (pending_ne_ofExcept _ _)
  | failed => cases ho
  | @pending q q' s t _ fuel hlt hpull =>
    obtain ⟨buffer, _ | p⟩ := q
    · cases hpull
    · obtain ⟨rest, -, rfl⟩ := turn_of_pull hpull (by simp)
      exact ⟨buffer, rest, rfl, hlt⟩

end Sequence

/-! ## Resuming -/

/-- A suspension, and what is waited for before the next attempt. -/
structure Delay where
  topic : Option Topic
  awaited : List (Option Topic)

/-- Waits for one suspension after the other. -/
def Session.awaitAll (s : Session) (awaited : List (Option Topic)) : Session := awaited.foldl await s

@[simp] theorem Session.calm_awaitAll (s : Session) (awaited : List (Option Topic)) :
    (s.awaitAll awaited).calm = s.calm := by
  induction awaited generalizing s with
  | nil => rfl
  | cons topic awaited ih => exact ih (s.await topic)

/-- A sequence is asked for its effective boolean value, and again after each of the delays. The last
outcome may be a suspension as well. -/
inductive Sequence.Insists (h : Host) :
    Sequence → Session → List Delay → Attempt Bool → Sequence → Session → Prop
  | last {q q' : Sequence} {s t : Session} {o : Attempt Bool} (fuel : Nat) :
      q.truth h fuel s = (o, q', t) → o ≠ .exhausted → Insists h q s [] o q' t
  | again {q q' q'' : Sequence} {s t u : Session} {o : Attempt Bool} {delay : Delay}
      {delays : List Delay} (fuel : Nat) :
      q.truth h fuel s = (.pending delay.topic, q', t) →
      Insists h q' (t.awaitAll delay.awaited) delays o q'' u →
      Insists h q s (delay :: delays) o q'' u

/-- The last attempt. -/
theorem Sequence.Insists.weighs {h : Host} {q q' : Sequence} {s t : Session} {o : Attempt Bool}
    {delays : List Delay} (hi : Insists h q s delays o q' t) : ∃ q₁ s₁, Weighs h q₁ s₁ o q' t := by
  induction hi with
  | last fuel hq ho => exact ⟨_, _, weighs_of_truth hq ho⟩
  | again _ _ _ ih => exact ih

/-! ## A producer that goes on with the value -/

namespace Producer

/-- A turn, made with fuel enough. -/
def Turns (h : Host) (p : Producer) (s : Session) (turn : Turn) : Prop :=
  ∃ fuel, next h fuel p s = turn ∧ turn.outcome ≠ .exhausted

/-- A producer is asked for its next item, and again after each of the delays. -/
inductive Driven (h : Host) : Producer → Session → List Delay → Turn → Prop
  | last {p : Producer} {s : Session} {turn : Turn} : Turns h p s turn → Driven h p s [] turn
  | again {p rest : Producer} {s t : Session} {delay : Delay} {delays : List Delay} {turn : Turn} :
      Turns h p s ⟨.pending delay.topic, rest, t⟩ →
      Driven h rest (t.awaitAll delay.awaited) delays turn → Driven h p s (delay :: delays) turn

theorem driven_nil {h : Host} {p : Producer} {s : Session} {turn : Turn} :
    Driven h p s [] turn ↔ Turns h p s turn := by
  constructor
  · rintro (ht | _)
    exact ht
  · exact .last

/-- Goes on with a boolean value, or fails for want of one. -/
def weighed (k : Bool → Producer) : Except Error Bool → Producer
  | .ok b => k b
  | .error e => fail e

/-- Draws as much as the effective boolean value needs and then goes on with it; these items have been
drawn before. -/
def weigh (buffer : List Value) (source : Producer) (k : Bool → Producer) : Producer :=
  gather (fun _ kept v => truthStep kept v) buffer.length buffer.reverse source fun kept =>
    weighed k (truthOf kept.reverse)

theorem truth_eq_weigh (source : Producer) (k : Bool → Producer) : truth source k = weigh [] source k :=
  rfl

/-- What an attempt at the effective boolean value leads to. -/
inductive Ensues (h : Host) (k : Bool → Producer) :
    Attempt Bool → Sequence → Session → List Delay → Turn → Prop
  | ready {b : Bool} {q : Sequence} {t : Session} {delays : List Delay} {turn : Turn} :
      Driven h (k b) t delays turn → Ensues h k (.ready b) q t delays turn
  | failed {e : Error} {q : Sequence} {t : Session} : Ensues h k (.failed e) q t [] (.failed e t)
  | pending {topic : Option Topic} {buffer : List Value} {source : Producer} {t : Session} :
      Ensues h k (.pending topic) ⟨buffer, some source⟩ t []
        ⟨.pending topic, weigh buffer source k, t⟩

variable {h : Host} {k : Bool → Producer} {buffer : List Value} {source : Producer} {q : Sequence}
  {s t : Session} {turn : Turn}

theorem turns_weighed {r : Except Error Bool} :
    Turns h (weighed k r) t turn ↔ Ensues h k (.ofExcept r) q t [] turn := by
  cases r with
  | ok b =>
    constructor
    · exact fun ht => .ready (.last ht)
    · rintro (hb | _)
      exact driven_nil.1 hb
  | error e =>
    constructor
    · rintro ⟨fuel, rfl, ho⟩
      cases fuel with
      | zero => exact absurd rfl ho
      | succ fuel => exact .failed
    · rintro (_ | _)
      exact ⟨1, rfl, by rintro ⟨⟩⟩

theorem truthStep_eq (hb : buffer.length < reach buffer) (v : Value) :
    truthStep buffer.reverse v =
      if (buffer ++ [v]).length < reach (buffer ++ [v]) then .more (buffer ++ [v]).reverse
      else .enough (buffer ++ [v]).reverse := by
  rcases undecided_cases hb with rfl | ⟨w, rfl, -⟩
  · cases v <;> rfl
  · have hle : ¬([w] ++ [v]).length < reach ([w] ++ [v]) := Nat.not_lt.2 (reach_le _)
    rw [if_neg hle]
    rfl

/-- The next item of the source is kept, and one more has to be seen or none. -/
theorem next_weigh (fuel : Nat) (hb : buffer.length < reach buffer) :
    next h (fuel + 1) (weigh buffer source k) s = (next h fuel source s).andThen (weigh buffer · k)
      (fun v source s => next h fuel (if (buffer ++ [v]).length < reach (buffer ++ [v]) then
        weigh (buffer ++ [v]) source k else weighed k (truthOf (buffer ++ [v]))) s)
      fun s => next h fuel (weighed k (truthOf buffer)) s := by
  rw [weigh, next_gather]
  generalize next h fuel source s = turn
  obtain ⟨(_ | v) | topic | e | _, rest, t⟩ := turn
  · simp only [Turn.andThen, List.reverse_reverse]
  · by_cases hlt : (buffer ++ [v]).length < reach (buffer ++ [v])
    · simp only [Turn.andThen, truthStep_eq hb, if_pos hlt]
      rw [weigh, List.length_append, List.length_singleton]
    · simp only [Turn.andThen, truthStep_eq hb, if_neg hlt, List.reverse_reverse]
  all_goals rfl

/-- A turn makes an attempt at the effective boolean value. -/
theorem weighs_of_turns (hb : buffer.length < reach buffer)
    (ht : Turns h (weigh buffer source k) s turn) :
    ∃ o q t, Sequence.Weighs h ⟨buffer, some source⟩ s o q t ∧ Ensues h k o q t [] turn := by
  obtain ⟨fuel, hn, ho⟩ := ht
  induction fuel generalizing buffer source s with
  | zero =>
    rw [← hn] at ho
    exact absurd rfl ho
  | succ fuel ih =>
    rw [next_weigh fuel hb] at hn
    cases hturn : next h fuel source s with
    | mk outcome rest t =>
      have hpull : Sequence.pull h fuel ⟨buffer, some source⟩ s = _ := Sequence.pull_of_turn hturn
      rw [hturn] at hn
      rcases outcome with (_ | v) | topic | e | _
      · exact ⟨_, _, t, .finish fuel hb hpull, turns_weighed.1 ⟨fuel, hn, ho⟩⟩
      · simp only [Turn.andThen] at hn
        by_cases hlt : (buffer ++ [v]).length < reach (buffer ++ [v])
        · rw [if_pos hlt] at hn
          obtain ⟨o, q, u, hw, he⟩ := ih hlt hn
          exact ⟨o, q, u, .item fuel hb hpull hw, he⟩
        · rw [if_neg hlt] at hn
          exact ⟨_, _, t, .item fuel hb hpull (.decided (Nat.le_of_not_lt hlt)),
            turns_weighed.1 ⟨fuel, hn, ho⟩⟩
      · subst hn
        exact ⟨_, _, t, .pending fuel hb hpull, .pending⟩
      · subst hn
        exact ⟨_, _, t, .failed fuel hb hpull, .failed⟩
      · subst hn
        exact absurd rfl ho

/-- A turn after a step that needs this much fuel. -/
theorem Turns.step {p p' : Producer} {m : Nat}
    (hstep : ∀ fuel, m ≤ fuel → next h (fuel + 1) p s = next h fuel p' t) (ht : Turns h p' t turn) :
    Turns h p s turn := by
  obtain ⟨fuel, rfl, ho⟩ := ht
  refine ⟨max m fuel + 1, ?_, ho⟩
  rw [hstep _ (Nat.le_max_left ..), next_le (Nat.le_max_right ..) ho]

/-- What an attempt leads to is a turn. -/
theorem turns_of_weighs {o : Attempt Bool} (hb : buffer.length < reach buffer)
    (hw : Sequence.Weighs h ⟨buffer, some source⟩ s o q t) (he : Ensues h k o q t [] turn) :
    Turns h (weigh buffer source k) s turn := by
  generalize hq : Sequence.mk buffer (some source) = q₀ at hw
  induction hw generalizing buffer source with
  | decided hd =>
    subst hq
    exact absurd hd (Nat.not_le_of_lt hb)
  | @item q₀ q₁ q₂ s t u v o m hlt hpull hw ih =>
    subst hq
    obtain ⟨rest, hsource, rfl⟩ := Sequence.turn_of_pull hpull (by simp)
    have hstep : ∀ fuel, m ≤ fuel → next h (fuel + 1) (weigh buffer source k) s =
        next h fuel (if (buffer ++ [v]).length < reach (buffer ++ [v]) then
          weigh (buffer ++ [v]) rest k else weighed k (truthOf (buffer ++ [v]))) t := by
      intro fuel hle
      rw [next_weigh fuel hb, hsource fuel hle]
      rfl
    by_cases hlt' : (buffer ++ [v]).length < reach (buffer ++ [v])
    · simp only [if_pos hlt'] at hstep
      exact (ih hlt' he rfl).step hstep
    · simp only [if_neg hlt'] at hstep
      cases hw with
      | decided => exact (turns_weighed.2 he).step hstep
      | item _ hlt | finish _ hlt | failed _ hlt | pending _ hlt => exact absurd hlt hlt'
  | @finish q₀ q₁ s t m hlt hpull =>
    subst hq
    obtain ⟨rest, hsource, rfl⟩ := Sequence.turn_of_pull hpull (by simp)
    refine (turns_weighed.2 he).step (m := m) fun fuel hle => ?_
    rw [next_weigh fuel hb, hsource fuel hle]
    rfl
  | failed m hlt hpull | pending m hlt hpull =>
    subst hq
    obtain ⟨rest, hsource, rfl⟩ := Sequence.turn_of_pull hpull (by simp)
    cases he
    refine ⟨m + 1, ?_, by rintro ⟨⟩⟩
    rw [next_weigh m hb, hsource m (Nat.le_refl m)]
    rfl

/-! ## Driving -/

/-- A producer that goes on with the effective boolean value is driven as the sequence of its source is
resumed, and then as what follows. -/
theorem driven_weigh {delays : List Delay} (hb : buffer.length < reach buffer) :
    Driven h (weigh buffer source k) s delays turn ↔
      ∃ first second o q t, delays = first ++ second ∧
        Sequence.Insists h ⟨buffer, some source⟩ s first o q t ∧ Ensues h k o q t second turn := by
  constructor
  · intro hd
    generalize hp : weigh buffer source k = p at hd
    induction hd generalizing buffer source with
    | last ht =>
      subst hp
      obtain ⟨o, q, t, hw, he⟩ := weighs_of_turns hb ht
      obtain ⟨m, hm⟩ := hw.truth
      exact ⟨[], [], o, q, t, rfl, .last _ (hm m (Nat.le_refl m)) hw.ne_exhausted, he⟩
    | @again p rest s t delay delays turn ht hd ih =>
      subst hp
      obtain ⟨o, q, u, hw, he⟩ := weighs_of_turns hb ht
      obtain ⟨m, hm⟩ := hw.truth
      have htruth := hm m (Nat.le_refl m)
      cases he with
      | ready hk =>
        exact ⟨[], delay :: delays, _, q, u, rfl, .last _ htruth hw.ne_exhausted,
          .ready (.again (driven_nil.1 hk) hd)⟩
      | pending =>
        obtain ⟨buffer', source', hq, hb'⟩ := hw.suspended
        cases hq
        obtain ⟨first, second, o, q, u, rfl, hi, he⟩ := ih hb' rfl
        exact ⟨delay :: first, second, o, q, u, rfl, .again _ htruth hi, he⟩
  · rintro ⟨first, second, o, q, t, rfl, hi, he⟩
    generalize hq : Sequence.mk buffer (some source) = q₀ at hi
    induction hi generalizing buffer source with
    | last fuel htruth ho =>
      subst hq
      have hw := Sequence.weighs_of_truth htruth ho
      have hturns : ∀ {turn}, Ensues h k _ _ _ [] turn → Turns h (weigh buffer source k) _ turn :=
        turns_of_weighs hb hw
      cases he with
      | ready hk =>
        cases hk with
        | last ht => exact .last (hturns (.ready (.last ht)))
        | again ht hd => exact .again (hturns (.ready (.last ht))) hd
      | failed => exact .last (hturns .failed)
      | pending => exact .last (hturns .pending)
    | again fuel htruth _ ih =>
      subst hq
      have hw := Sequence.weighs_of_truth htruth (by simp)
      obtain ⟨buffer', source', rfl, hb'⟩ := hw.suspended
      exact .again (turns_of_weighs hb hw .pending) (ih hb' he rfl)

/-! ## Verdicts -/

/-- What is driven to an answer is what is drawn without waiting. -/
theorem Driven.draws {p : Producer} {delays : List Delay} {d : Draw}
    (hp : Driven h p s delays turn) (ha : turn.answer? = some d) :
    Draws h p s.calm d turn.session.calm := by
  induction hp with
  | @last p s turn ht =>
    obtain ⟨fuel, rfl, -⟩ := ht
    exact (Settles.answers ha).draws
  | @again p rest s t delay delays turn ht _ ih =>
    obtain ⟨fuel, hn, -⟩ := ht
    have hs := sound_next (h := h) fuel p s
    rw [hn] at hs
    have hd := ih ha
    rw [Session.calm_awaitAll] at hd
    exact hs d _ hd

/-- Whoever waits for every suspension drives the producer to its answer. -/
theorem Settles.driven {p : Producer} {d : Draw} (hp : Settles h p s d t) :
    ∃ delays turn, (∀ delay ∈ delays, delay.awaited = [delay.topic]) ∧ Driven h p s delays turn ∧
      turn.answer? = some d ∧ turn.session = t := by
  induction hp with
  | @answers fuel p s d ha =>
    exact ⟨[], _, by simp, .last ⟨fuel, rfl, Turn.outcome_ne_of_answer ha⟩, ha, rfl⟩
  | @waits fuel p s topic d u hw _ ih =>
    obtain ⟨delays, turn, hprompt, hd, ha, rfl⟩ := ih
    have ht : Turns h p s ⟨.pending topic, (next h fuel p s).rest, (next h fuel p s).session⟩ :=
      ⟨fuel, by rw [← hw], by simp⟩
    exact ⟨⟨topic, [topic]⟩ :: delays, turn, List.forall_mem_cons.2 ⟨rfl, hprompt⟩, .again ht hd, ha,
      rfl⟩

/-- What is drawn from a producer that has nothing but the boolean value to give. -/
def verdict : Except Error Bool → Draw
  | .ok b => .item (.boolean b) .done
  | .error e => .failed e

theorem verdict_inj {r r' : Except Error Bool} (hr : verdict r = verdict r') : r = r' := by
  cases r <;> cases r' <;> cases hr <;> rfl

end Producer

namespace Sequence

variable {h : Host} {buffer : List Value} {source : Producer} {q q' : Sequence} {s s' t t' : Session}
  {r r' : Except Error Bool} {delays delays' : List Delay}

/-- The effective boolean value that is answered in the end is the one found without waiting. -/
theorem Insists.draws (hb : buffer.length < reach buffer)
    (hi : Insists h ⟨buffer, some source⟩ s delays (.ofExcept r) q t) :
    Draws h (weigh buffer source fun b => .singleton (.boolean b)) s.calm (verdict r) t.calm := by
  have hdriven {turn : Turn}
      (he : Ensues h (fun b => .singleton (.boolean b)) (.ofExcept r) q t [] turn) :
      Driven h (weigh buffer source fun b => .singleton (.boolean b)) s delays turn :=
    (driven_weigh hb).2 ⟨delays, [], _, q, t, (List.append_nil _).symm, hi, he⟩
  cases r with
  | ok b =>
    have hk : Driven h (.singleton (.boolean b)) t [] ⟨.item (.boolean b), .done, t⟩ :=
      .last ⟨1, rfl, by simp⟩
    exact (hdriven (.ready hk)).draws rfl
  | error e => exact (hdriven .failed).draws rfl

/-- Whatever is waited for in between, the answer is the same. -/
theorem Insists.unique (hb : buffer.length < reach buffer) (hs : s'.calm = s.calm)
    (hi : Insists h ⟨buffer, some source⟩ s delays (.ofExcept r) q t)
    (hi' : Insists h ⟨buffer, some source⟩ s' delays' (.ofExcept r') q' t') :
    r' = r ∧ t'.calm = t.calm := by
  have hd' := hi'.draws hb
  rw [hs] at hd'
  obtain ⟨hr, ht⟩ := hd'.unique (hi.draws hb)
  exact ⟨verdict_inj hr, ht⟩

end Sequence

end XPath
