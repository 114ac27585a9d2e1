import XPath.Lazy.Sequence
import XPath.Proofs.Lazy.Settling

/-!
# Requests

A caller of a sequence makes requests, one after the other, and waits in between as it likes.
`Sequence.Serves` is the record of such a caller. `Sequence.served` says once what a request can come
to, in terms of what is drawn from the source. A caller who only asks for the next item gets what is
drawn without waiting, and nothing else (`Sequence.Serves.stage`, `Producer.Responds.delivers`).
-/

namespace XPath

/-- What can be asked of a sequence. -/
inductive Request where
  | next | first | cardinality | truth | drain
  deriving Repr, DecidableEq

namespace Request

abbrev Answer : Request → Type
  | next | first => Option Value
  | cardinality => Cardinality
  | truth => Bool
  | drain => List Value

/-- The answer of a sequence with the given items left. -/
def answer : (r : Request) → List Value → Attempt r.Answer
  | next, vs => .ready vs.head?
  | first, vs => .ready vs.head?
  | cardinality, vs => .ready (.ofLength vs.length)
  | truth, vs => .ofExcept (truthOf vs)
  | drain, vs => .ready vs

/-- The items that stay in the buffer once the request is answered. -/
def left : Request → List Value → List Value
  | next, vs => vs.tail
  | drain, _ => []
  | _, vs => vs

/-- Whatever items come after these, the answer is the same. -/
def Decided (r : Request) (vs : List Value) : Prop := ∀ ws, r.answer (vs ++ ws) = r.answer vs

end Request

/-- A request and what it came to. -/
structure Exchange where
  request : Request
  outcome : Attempt request.Answer

/-- The answer to a request for the next item; a suspension is none. -/
def Exchange.answer? : Exchange → Option (Attempt (Option Value))
  | ⟨.next, .ready v⟩ => some (.ready v)
  | ⟨.next, .failed e⟩ => some (.failed e)
  | _ => none

/-- All answers to requests for the next item. -/
def Exchange.answers (xs : List Exchange) : List (Attempt (Option Value)) := xs.filterMap answer?

@[simp] theorem Exchange.answers_append (xs ys : List Exchange) :
    answers (xs ++ ys) = answers xs ++ answers ys := List.filterMap_append

/-- A member of a list with one more at the end is that one, or was there before. -/
theorem split_concat {α : Type} {xs ys zs : List α} {x y : α} (hxs : xs ++ [y] = ys ++ x :: zs) :
    xs = ys ∧ y = x ∧ zs = [] ∨ ∃ zs', xs = ys ++ x :: zs' := by
  rcases List.eq_nil_or_concat zs with rfl | ⟨zs, z, rfl⟩
  · obtain ⟨rfl, hx⟩ := List.append_inj' hxs rfl
    exact .inl ⟨rfl, List.singleton_inj.1 hx, rfl⟩
  · have hsplit : xs ++ [y] = (ys ++ x :: zs) ++ [z] := by simpa using hxs
    exact .inr ⟨zs, (List.append_inj' hsplit rfl).1⟩

namespace Sequence

def serve (h : Host) (fuel : Nat) (q : Sequence) (s : Session) : (r : Request) → Result r.Answer
  | .next => q.next h fuel s
  | .first => q.first h fuel s
  | .cardinality => q.cardinality h fuel s
  | .truth => q.truth h fuel s
  | .drain => q.drain h fuel s

/-- Requests are made, each with fuel enough, and suspensions waited for. -/
inductive Serves (h : Host) (q : Sequence) (s : Session) :
    List Exchange → Sequence → Session → Prop
  | start : Serves h q s [] q s
  | wait {xs q' s'} (topic : Option Topic) :
      Serves h q s xs q' s' → Serves h q s xs q' (s'.await topic)
  | request {l q' s' r o q'' s''} (fuel : Nat) :
      Serves h q s l q' s' → q'.serve h fuel s' r = (o, q'', s'') → o ≠ .exhausted →
      Serves h q s (l ++ [⟨r, o⟩]) q'' s''

variable {h : Host} {q q' q'' : Sequence} {s s' s'' : Session}

theorem Serves.trans {xs ys : List Exchange} (hx : Serves h q s xs q' s')
    (hy : Serves h q' s' ys q'' s'') : Serves h q s (xs ++ ys) q'' s'' := by
  induction hy with
  | start => simpa using hx
  | wait topic _ ih => exact .wait topic ih
  | request fuel _ hr ho ih =>
    rw [← List.append_assoc]
    exact .request fuel ih hr ho

theorem Serves.single {r : Request} {o : Attempt r.Answer} (fuel : Nat)
    (hr : q.serve h fuel s r = (o, q', s')) (ho : o ≠ .exhausted) :
    Serves h q s [⟨r, o⟩] q' s' := .request (l := []) fuel .start hr ho

end Sequence

/-! ## Items drawn so far -/

namespace Producer

variable {h : Host} {p q r : Producer} {s t u : Session} {vs ws : List Value} {e : Option Error}

/-- The source of a sequence after the items have been drawn from a producer: it goes on as the
producer would, and is gone once the producer has ended. -/
def Stands (h : Host) (p : Producer) (s : Session) (vs : List Value) (source : Option Producer)
    (t : Session) : Prop :=
  match source with
  | some q => ∃ r u, Begins h p s vs r u ∧ ∀ d w, Draws h q t.calm d w ↔ Draws h r u d w
  | none => Yields h p s vs none t.calm

theorem Stands.start : Stands h p s.calm [] (some p) s := ⟨p, s.calm, .nil, fun _ _ => .rfl⟩

/-- What the source of a sequence has yet to yield. -/
def Remains (h : Host) (source : Option Producer) (t : Session) (vs : List Value)
    (e : Option Error) (u : Session) : Prop :=
  match source with
  | some q => Yields h q t.calm vs e u
  | none => vs = [] ∧ e = none ∧ t.calm = u

theorem Stands.remains {source : Option Producer} (hs : Stands h p s vs source t)
    (hp : Yields h p s ws e u) : ∃ us, ws = vs ++ us ∧ Remains h source t us e u := by
  cases source with
  | none =>
    obtain ⟨rfl, rfl, rfl⟩ := hp.unique hs
    exact ⟨[], (List.append_nil _).symm, rfl, rfl, rfl⟩
  | some q =>
    obtain ⟨r, w, hr, hd⟩ := hs
    induction hr generalizing ws with
    | nil =>
      refine ⟨ws, rfl, ?_⟩
      cases hp with
      | finish hp => exact .finish ((hd _ _).2 hp)
      | failed hp => exact .failed ((hd _ _).2 hp)
      | item hp hy => exact .item ((hd _ _).2 hp) hy
    | item hdraw _ ih =>
      cases hp with
      | finish hp | failed hp => cases (hdraw.unique hp).1
      | item hp hy =>
        obtain ⟨heq, rfl⟩ := hdraw.unique hp
        cases heq
        obtain ⟨us, rfl, hus⟩ := ih hy hd
        exact ⟨us, rfl, hus⟩

theorem Stands.await {source : Option Producer} (hs : Stands h p s vs source t)
    (topic : Option Topic) : Stands h p s vs source (t.await topic) := by
  cases source <;> exact hs

end Producer

open Producer

/-! ## What a request comes to -/

namespace Sequence

/-- All that a request can come to after some items have been given away. -/
inductive Served (h : Host) (p : Producer) (s : Session) (given : List Value) (r : Request) :
    Result r.Answer → Prop
  | exhausted {q : Sequence} {t : Session} : Served h p s given r (.exhausted, q, t)
  | pending {topic : Option Topic} {q : Sequence} {t : Session} :
      Stands h p s (given ++ q.buffer) q.source t → Served h p s given r (.pending topic, q, t)
  | raised {e : Error} {q : Sequence} {t : Session} :
      q.source = none → Yields h p s (given ++ q.buffer) (some e) t.calm →
      Served h p s given r (.failed e, q, t)
  | answered {q : Sequence} {t : Session} :
      Stands h p s (given ++ q.buffer) q.source t → (q.source = none ∨ r.Decided q.buffer) →
      Served h p s given r (r.answer q.buffer, { q with buffer := r.left q.buffer }, t)

variable {h : Host} {p : Producer} {s t t' : Session} {q q' : Sequence} {given : List Value}

/-- What the outcome of a pull says after the items have been drawn. -/
def Pulled (h : Host) (p : Producer) (s : Session) (vs : List Value) :
    Result (Option Value) → Prop
  | (.ready (some v), q, t) => Stands h p s (vs ++ [v]) q.source t
  | (.ready none, q, t) => q.source = none ∧ Stands h p s vs none t
  | (.failed e, q, t) => q.source = none ∧ Yields h p s vs (some e) t.calm
  | (.pending _, q, t) => Stands h p s vs q.source t
  | (.exhausted, _, _) => True

theorem pulled {vs : List Value} (fuel : Nat) (hq : Stands h p s vs q.source t) :
    Pulled h p s vs (q.pull h fuel t) := by
  obtain ⟨buffer, _ | source⟩ := q
  · exact ⟨rfl, hq⟩
  · obtain ⟨r, u, hr, hd⟩ := hq
    have hs := sound_next (h := h) fuel source t
    have hpending : ∀ topic d w, Draws h source t.calm d w →
        (source.next h fuel t).outcome = .pending topic →
        Draws h (source.next h fuel t).rest (source.next h fuel t).session.calm d w :=
      fun _ _ _ => Draws.of_pending
    simp only [pull]
    generalize source.next h fuel t = turn at hs hpending
    obtain ⟨(_ | v) | topic | e | _, rest, t⟩ := turn
    · refine ⟨rfl, ?_⟩
      have := hr.yields (.finish ((hd _ _).1 hs))
      rwa [List.append_nil] at this
    · exact ⟨rest, t.calm, hr.snoc ((hd _ _).1 hs), fun _ _ => .rfl⟩
    · exact ⟨r, u, hr, fun d w => ⟨fun hw => (hd d w).1 (hs d w hw),
        fun hw => hpending topic d w ((hd d w).2 hw) rfl⟩⟩
    · refine ⟨rfl, ?_⟩
      have := hr.yields (.failed ((hd _ _).1 hs))
      rwa [List.append_nil] at this
    · trivial

theorem pull_buffer (fuel : Nat) (q : Sequence) (t : Session) :
    (q.pull h fuel t).2.1.buffer = q.buffer := by
  unfold pull
  split
  · rfl
  · dsimp only
    split <;> rfl

/-- What the outcome of filling the buffer says after some items have been given away. -/
def Filled (h : Host) (p : Producer) (s : Session) (given : List Value) (limit : Option Nat) :
    Result Unit → Prop
  | (.ready _, q, t) =>
    Stands h p s (given ++ q.buffer) q.source t ∧
      (q.source = none ∨ limit.any (· ≤ q.buffer.length) = true)
  | (.failed e, q, t) => q.source = none ∧ Yields h p s (given ++ q.buffer) (some e) t.calm
  | (.pending _, q, t) => Stands h p s (given ++ q.buffer) q.source t
  | (.exhausted, _, _) => True

theorem filled (limit : Option Nat) (fuel : Nat)
    (hq : Stands h p s (given ++ q.buffer) q.source t) :
    Filled h p s given limit (q.fill h limit fuel t) := by
  induction fuel generalizing q t with
  | zero => trivial
  | succ fuel ih =>
    rw [fill]
    split
    next hl => exact ⟨hq, .inr hl⟩
    have hpull := pulled fuel hq
    have hbuffer := pull_buffer (h := h) fuel q t
    generalize q.pull h fuel t = result at hpull hbuffer
    obtain ⟨(_ | v) | topic | e | _, q', t'⟩ := result <;> dsimp only at hbuffer <;>
      rw [← hbuffer] at hpull
    · obtain ⟨hnone, hs⟩ := hpull
      exact ⟨by rwa [hnone], .inl hnone⟩
    · apply ih
      rwa [← List.append_assoc]
    · exact hpull
    · exact hpull
    · trivial

theorem Served.of_fill {r : Request} {n : Nat} (fuel : Nat) (hr : ∀ vs, r.left vs = vs)
    (hn : ∀ vs : List Value, n ≤ vs.length → r.Decided vs)
    (hq : Stands h p s (given ++ q.buffer) q.source t) :
    Served h p s given r (q.peek h fuel n r.answer t) := by
  have hfill := filled (some n) fuel hq
  rw [peek]
  generalize q.fill h (some n) fuel t = result at hfill
  obtain ⟨_ | topic | e | _, q', t'⟩ := result
  · obtain ⟨hs, hdone⟩ := hfill
    have hserved : Served h p s given r
        (r.answer q'.buffer, { q' with buffer := r.left q'.buffer }, t') := by
      apply Served.answered hs
      exact hdone.imp_right fun hle => hn _ (by simpa using hle)
    rwa [hr] at hserved
  · exact .pending hfill
  · exact .raised hfill.1 hfill.2
  · exact .exhausted

theorem Request.Decided.of_truth {vs : List Value} (hv : 2 ≤ vs.length) :
    Request.Decided .truth vs := by
  intro ws
  match vs, hv with
  | v :: w :: vs, _ => cases v <;> rfl

theorem served_next (fuel : Nat) (hq : Stands h p s (given ++ q.buffer) q.source t) :
    Served h p s given .next (q.next h fuel t) := by
  obtain ⟨_ | ⟨v, rest⟩, source⟩ := q
  · have hpull := pulled fuel hq
    have hbuffer := pull_buffer (h := h) fuel ⟨[], source⟩ t
    change Served h p s given .next (pull h fuel ⟨[], source⟩ t)
    generalize pull h fuel ⟨[], source⟩ t = result at hpull hbuffer
    obtain ⟨outcome, ⟨buffer, source'⟩, t'⟩ := result
    dsimp only at hbuffer
    subst hbuffer
    rw [List.append_nil] at hpull
    rcases outcome with (_ | v) | topic | e | _
    · obtain ⟨rfl, hs⟩ := hpull
      exact .answered (q := ⟨[], none⟩) (by rwa [List.append_nil]) (.inl rfl)
    · exact .answered (q := ⟨[v], source'⟩) hpull (.inr fun _ => rfl)
    · exact .pending (by rwa [List.append_nil])
    · exact .raised hpull.1 (by rw [List.append_nil]; exact hpull.2)
    · exact .exhausted
  · exact .answered (q := ⟨v :: rest, source⟩) hq (.inr fun _ => rfl)

theorem served_first (fuel : Nat) (hq : Stands h p s (given ++ q.buffer) q.source t) :
    Served h p s given .first (q.first h fuel t) := by
  refine Served.of_fill (r := .first) fuel (fun _ => rfl) (fun vs hv ws => ?_) hq
  match vs, hv with
  | v :: vs, _ => rfl

theorem served_cardinality (fuel : Nat) (hq : Stands h p s (given ++ q.buffer) q.source t) :
    Served h p s given .cardinality (q.cardinality h fuel t) := by
  refine Served.of_fill (r := .cardinality) fuel (fun _ => rfl) (fun vs hv ws => ?_) hq
  match vs, hv with
  | v :: w :: vs, _ => rfl

/-- A first item that is no node is looked at together with a second one. -/
theorem served_truth (fuel : Nat) (hq : Stands h p s (given ++ q.buffer) q.source t) :
    Served h p s given .truth (q.truth h fuel t) := by
  have hfill := filled (some 1) fuel hq
  rw [truth, first, peek]
  generalize q.fill h (some 1) fuel t = result at hfill
  obtain ⟨_ | topic | e | _, ⟨buffer, source⟩, t'⟩ := result
  · obtain ⟨hs, hdone⟩ := hfill
    rcases buffer with _ | ⟨v, rest⟩
    · exact .answered hs (.inl (hdone.resolve_right (by simp)))
    · have hpeek := Served.of_fill (r := .truth) fuel (fun _ => rfl)
        (fun _ => Request.Decided.of_truth) hs
      cases v with
      | node n => exact .answered (q := ⟨.node n :: rest, source⟩) hs (.inr fun _ => rfl)
      | _ => exact hpeek
  · exact .pending hfill
  · exact .raised hfill.1 hfill.2
  · exact .exhausted

theorem served_drain (fuel : Nat) (hq : Stands h p s (given ++ q.buffer) q.source t) :
    Served h p s given .drain (q.drain h fuel t) := by
  have hfill := filled none fuel hq
  rw [drain]
  generalize q.fill h none fuel t = result at hfill
  obtain ⟨_ | topic | e | _, q', t'⟩ := result
  · exact .answered hfill.1 (.inl (hfill.2.resolve_right (by simp)))
  · exact .pending hfill
  · exact .raised hfill.1 hfill.2
  · exact .exhausted

theorem served (fuel : Nat) (r : Request) (hq : Stands h p s (given ++ q.buffer) q.source t) :
    Served h p s given r (q.serve h fuel t r) := by
  cases r with
  | next => exact served_next fuel hq
  | first => exact served_first fuel hq
  | cardinality => exact served_cardinality fuel hq
  | truth => exact served_truth fuel hq
  | drain => exact served_drain fuel hq

/-! ## After the end -/

theorem fill_ended {limit : Option Nat} {fuel : Nat} (hq : q.source = none) :
    q.fill h limit (fuel + 1) t = (.ready (), q, t) := by
  rw [fill, pull, hq]
  split <;> rfl

/-- A sequence without a source answers from its buffer alone. -/
theorem serve_ended (fuel : Nat) {r : Request} (hq : q.source = none)
    (ho : (q.serve h fuel t r).1 ≠ .exhausted) :
    q.serve h fuel t r = (r.answer q.buffer, { q with buffer := r.left q.buffer }, t) := by
  obtain ⟨buffer, source⟩ := q
  cases hq
  cases r with
  | next => cases buffer <;> rfl
  | first | cardinality | drain =>
    cases fuel with
    | zero => exact absurd rfl ho
    | succ fuel =>
      simp only [serve, first, cardinality, drain, peek, fill_ended]
      rfl
  | truth =>
    cases fuel with
    | zero => exact absurd rfl ho
    | succ fuel =>
      simp only [serve, truth, first, peek, fill_ended]
      rcases buffer with _ | ⟨v, rest⟩
      · rfl
      · cases v <;> simp only [List.head?_cons, fill_ended] <;> rfl

end Sequence

/-! ## Asking for the next item alone -/

/-- The answer that delivers an item. -/
abbrev Attempt.item (v : Value) : Attempt (Option Value) := .ready (some v)

/-- The answer at the end of a sequence. -/
abbrev Attempt.done : Attempt (Option Value) := .ready none

namespace Producer

/-- Answers to requests for the next item: the items as they are drawn, the error that ends them if
one does, and the end from then on. -/
inductive Responds (h : Host) : Producer → Session → List (Attempt (Option Value)) → Prop
  | nil {p : Producer} {s : Session} : Responds h p s []
  | item {p q : Producer} {s t : Session} {v : Value} {os : List (Attempt (Option Value))} :
      Draws h p s (.item v q) t → Responds h q t os → Responds h p s (.item v :: os)
  | finish {p : Producer} {s t : Session} (n : Nat) :
      Draws h p s .finish t → Responds h p s (List.replicate n .done)
  | failed {p : Producer} {s t : Session} {e : Error} (n : Nat) :
      Draws h p s (.failed e) t → Responds h p s (.failed e :: List.replicate n .done)

variable {h : Host} {p q : Producer} {s t : Session} {vs : List Value} {e : Error}
  {os os' : List (Attempt (Option Value))}

theorem Begins.responds (hp : Begins h p s vs q t) (hq : Responds h q t os) :
    Responds h p s (vs.map .item ++ os) := by
  induction hp with
  | nil => exact hq
  | item hd _ ih => exact .item hd (ih hq)

theorem Yields.responds (hp : Yields h p s vs none t) (n : Nat) :
    Responds h p s (vs.map .item ++ List.replicate n .done) := by
  generalize he : (none : Option Error) = e at hp
  induction hp with
  | finish hd => exact .finish n hd
  | failed => cases he
  | item hd _ ih => exact .item hd (ih he)

theorem Yields.responds_failed (hp : Yields h p s vs (some e) t) (n : Nat) :
    Responds h p s (vs.map .item ++ .failed e :: List.replicate n .done) := by
  generalize he : some e = e' at hp
  induction hp with
  | finish => cases he
  | failed hd =>
    cases he
    exact .failed n hd
  | item hd _ ih => exact .item hd (ih he)

theorem Stands.responds {source : Option Producer} (hs : Stands h p s vs source t) :
    Responds h p s (vs.map .item) := by
  cases source with
  | none => simpa using Yields.responds hs 0
  | some q =>
    obtain ⟨r, u, hr, -⟩ := hs
    simpa using hr.responds .nil

/-- Whoever asks as often gets the same answers. -/
theorem Responds.unique (hp : Responds h p s os) (hp' : Responds h p s os')
    (hlen : os.length = os'.length) : os = os' := by
  induction hp generalizing os' with
  | nil => exact (List.eq_nil_of_length_eq_zero hlen.symm).symm
  | item hd _ ih =>
    cases hp' with
    | nil => cases hlen
    | item hd' hr =>
      obtain ⟨heq, rfl⟩ := hd.unique hd'
      cases heq
      rw [ih hr (Nat.succ.inj hlen)]
    | finish _ hd' | failed _ hd' => cases (hd.unique hd').1
  | finish n hd =>
    cases hp' with
    | nil => exact List.eq_nil_of_length_eq_zero hlen
    | finish =>
      rw [List.length_replicate, List.length_replicate] at hlen
      rw [hlen]
    | item hd' | failed _ hd' => cases (hd.unique hd').1
  | failed n hd =>
    cases hp' with
    | nil => cases hlen
    | item hd' | finish _ hd' => cases (hd.unique hd').1
    | failed _ hd' =>
      cases (hd.unique hd').1
      simp only [List.length_cons, List.length_replicate] at hlen
      rw [Nat.succ.inj hlen]

theorem Responds.of_append (hp : Responds h p s (os ++ os')) : Responds h p s os := by
  generalize hall : os ++ os' = all at hp
  induction hp generalizing os with
  | nil =>
    rw [List.append_eq_nil_iff] at hall
    rw [hall.1]
    exact .nil
  | item hd _ ih =>
    rcases os with _ | ⟨o, os⟩
    · exact .nil
    · cases hall
      exact .item hd (ih rfl)
  | finish n hd =>
    obtain ⟨-, hos, -⟩ := List.append_eq_replicate_iff.1 hall
    rw [hos]
    exact .finish _ hd
  | failed n hd =>
    rcases os with _ | ⟨o, os⟩
    · exact .nil
    · rw [List.cons_append, List.cons.injEq] at hall
      obtain ⟨rfl, hall⟩ := hall
      obtain ⟨-, hos, -⟩ := List.append_eq_replicate_iff.1 hall
      rw [hos]
      exact .failed _ hd

end Producer

namespace Sequence

/-- How far a caller has come that has been given these answers. -/
inductive Stage (h : Host) (p : Producer) (s : Session) :
    List (Attempt (Option Value)) → Sequence → Session → Prop
  | underway {given : List Value} {q : Sequence} {t : Session} :
      Stands h p s (given ++ q.buffer) q.source t → Stage h p s (given.map .item) q t
  | ended {given : List Value} {t : Session} (n : Nat) :
      Yields h p s given none t.calm →
      Stage h p s (given.map .item ++ List.replicate n .done) ⟨[], none⟩ t
  | failed {given : List Value} {e : Error} {t : Session} (n : Nat) :
      Yields h p s given (some e) t.calm →
      Stage h p s (given.map .item ++ .failed e :: List.replicate n .done) ⟨[], none⟩ t

variable {h : Host} {p : Producer} {s t t' : Session} {q q' : Sequence}
  {os : List (Attempt (Option Value))} {r : Request} {o : Attempt r.Answer}

theorem Stage.responds (hs : Stage h p s os q t) : Responds h p s os := by
  cases hs with
  | underway hs =>
    have hall := hs.responds
    rw [List.map_append] at hall
    exact hall.of_append
  | ended n hy => exact hy.responds n
  | failed n hy => exact hy.responds_failed n

theorem Stage.await (hs : Stage h p s os q t) (topic : Option Topic) :
    Stage h p s os q (t.await topic) := by
  cases hs with
  | underway hs => exact .underway (hs.await topic)
  | ended n hy => exact .ended n hy
  | failed n hy => exact .failed n hy

/-- Nothing is buffered when a request for the next item fails. -/
theorem next_failed {e : Error} {fuel : Nat} (hq : q.next h fuel t = (.failed e, q', t')) :
    q'.buffer = [] := by
  obtain ⟨_ | ⟨v, rest⟩, source⟩ := q
  · have hbuffer := pull_buffer (h := h) fuel ⟨[], source⟩ t
    change pull h fuel ⟨[], source⟩ t = _ at hq
    rwa [hq] at hbuffer
  · cases hq

/-- A sequence with nothing left stays as it is. -/
theorem serve_spent {fuel : Nat} (hq : serve h fuel ⟨[], none⟩ t r = (o, q', t'))
    (ho : o ≠ .exhausted) : q' = ⟨[], none⟩ ∧ t' = t ∧
      (Exchange.answers [⟨r, o⟩] = [] ∨ Exchange.answers [⟨r, o⟩] = [.done]) := by
  have hserve := serve_ended (h := h) (q := ⟨[], none⟩) (t := t) fuel (r := r) rfl (by rwa [hq])
  rw [hq] at hserve
  cases hserve
  cases r with
  | next => exact ⟨rfl, rfl, .inr rfl⟩
  | _ => exact ⟨rfl, rfl, .inl rfl⟩

/-- An answer, unless all items have been asked for. -/
theorem Stage.answered {given : List Value} (hd : r ≠ .drain)
    (hs : Stands h p s (given ++ q.buffer) q.source t) (hq : q.source = none ∨ r.Decided q.buffer) :
    Stage h p s (given.map .item ++ Exchange.answers [⟨r, r.answer q.buffer⟩])
      { q with buffer := r.left q.buffer } t := by
  cases r with
  | drain => exact absurd rfl hd
  | next =>
    obtain ⟨_ | ⟨v, rest⟩, source⟩ := q
    · have hsource : source = none := hq.resolve_right fun hdec => nomatch hdec [.string ""]
      subst hsource
      rw [List.append_nil] at hs
      exact .ended 1 hs
    · have hgiven : given.map Attempt.item ++ [.item v] = (given ++ [v]).map .item := by
        rw [List.map_append, List.map_singleton]
      change Stage h p s (given.map .item ++ [.item v]) ⟨rest, source⟩ _
      rw [hgiven]
      apply Stage.underway
      rwa [List.append_assoc]
  | first | cardinality =>
    change Stage h p s (given.map .item ++ []) q t
    rw [List.append_nil]
    exact .underway hs
  | truth =>
    have hnone : Exchange.answers [⟨.truth, Request.answer .truth q.buffer⟩] = [] := rfl
    rw [hnone, List.append_nil]
    exact .underway hs

/-- One more request, unless it is one for all items or an error is lost on it. -/
theorem Stage.request {fuel : Nat} (hs : Stage h p s os q t) (hd : r ≠ .drain)
    (hr : r = .next ∨ ∀ vs e t, ¬Yields h p s vs (some e) t)
    (hq : q.serve h fuel t r = (o, q', t')) (ho : o ≠ .exhausted) :
    Stage h p s (os ++ Exchange.answers [⟨r, o⟩]) q' t' := by
  cases hs with
  | underway hs =>
    have hserved := served fuel r hs
    rw [hq] at hserved
    cases hserved with
    | exhausted => exact absurd rfl ho
    | @pending topic _ _ hs =>
      have hnone : Exchange.answers [⟨r, .pending topic⟩] = [] := by cases r <;> rfl
      rw [hnone, List.append_nil]
      exact .underway hs
    | raised hsource hy =>
      rcases hr with rfl | hr
      · obtain ⟨buffer, source⟩ := q'
        obtain rfl : buffer = [] := next_failed hq
        cases hsource
        rw [List.append_nil] at hy
        exact .failed 0 hy
      · exact absurd hy (hr _ _ _)
    | answered hs hdone => exact .answered hd hs hdone
  | ended n hy =>
    obtain ⟨rfl, rfl, ha | ha⟩ := serve_spent hq ho <;> rw [ha]
    · rw [List.append_nil]
      exact .ended n hy
    · rw [List.append_assoc, ← List.replicate_succ']
      exact .ended (n + 1) hy
  | failed n hy =>
    obtain ⟨rfl, rfl, ha | ha⟩ := serve_spent hq ho <;> rw [ha]
    · rw [List.append_nil]
      exact .failed n hy
    · rw [List.append_assoc, List.cons_append, ← List.replicate_succ']
      exact .failed (n + 1) hy

/-- The stage of a caller that does not ask for all items at once; it may look ahead if the producer
never fails. -/
theorem Serves.stage {xs : List Exchange} {u : Session}
    (hrun : Serves h (.ofProducer p) u xs q t) (hd : ∀ x ∈ xs, x.request ≠ .drain)
    (hx : (∀ x ∈ xs, x.request = .next) ∨ ∀ vs e t, ¬Yields h p u.calm vs (some e) t) :
    Stage h p u.calm (Exchange.answers xs) q t := by
  induction hrun with
  | start =>
    have hstart : Stands h p u.calm ([] ++ (ofProducer p).buffer) (ofProducer p).source u := .start
    exact .underway hstart
  | wait topic _ ih => exact (ih hd hx).await topic
  | request fuel _ hq ho ih =>
    rw [Exchange.answers_append]
    have hlast : ∀ {P : Exchange → Prop} {xs x}, (∀ y ∈ xs ++ [x], P y) → (∀ y ∈ xs, P y) ∧ P x :=
      fun hall => ⟨fun y hy => hall y (List.mem_append_left _ hy), hall _ (by simp)⟩
    have hs := ih (hlast hd).1 (hx.imp_left fun hx => (hlast hx).1)
    exact hs.request (hlast hd).2 (hx.imp_left fun hx => (hlast hx).2) hq ho

/-! ### Getting all answers -/

/-- A caller who does nothing but ask for the next item gets the answers. -/
def Delivers (h : Host) (q : Sequence) (s : Session) (os : List (Attempt (Option Value)))
    (q' : Sequence) (t : Session) : Prop :=
  ∃ xs, (∀ x ∈ xs, x.request = .next) ∧ Exchange.answers xs = os ∧ Serves h q s xs q' t

theorem Delivers.trans {os' : List (Attempt (Option Value))} {q'' : Sequence} {t'' : Session}
    (hq : Delivers h q s os q' t) (hq' : Delivers h q' t os' q'' t'') :
    Delivers h q s (os ++ os') q'' t'' := by
  obtain ⟨xs, hnext, rfl, hrun⟩ := hq
  obtain ⟨ys, hnext', rfl, hrun'⟩ := hq'
  refine ⟨xs ++ ys, fun x hx => ?_, Exchange.answers_append xs ys, hrun.trans hrun'⟩
  exact (List.mem_append.1 hx).elim (hnext x) (hnext' x)

theorem delivers_spent (n : Nat) :
    Delivers h ⟨[], none⟩ t (List.replicate n .done) ⟨[], none⟩ t := by
  induction n with
  | zero => exact ⟨[], by simp, rfl, .start⟩
  | succ n ih =>
    have hnext : Delivers h ⟨[], none⟩ t [.done] ⟨[], none⟩ t :=
      ⟨[⟨.next, .done⟩], by simp, rfl, .single 0 rfl nofun⟩
    exact hnext.trans ih

end Sequence

/-- What is answered by drawing from the source of a sequence. -/
def Draw.answer : Draw → Attempt (Option Value)
  | .item v _ => .item v
  | .finish => .done
  | .failed e => .failed e

/-- The source that is left after drawing. -/
def Draw.rest? : Draw → Option Producer
  | .item _ q => some q
  | _ => none

namespace Producer

open Sequence

variable {h : Host} {p : Producer} {s t u : Session} {os : List (Attempt (Option Value))}

theorem outcome_answer {turn : Turn} {d : Draw} (ha : turn.answer? = some d) :
    turn.outcome = d.answer := by
  obtain ⟨(_ | v) | _ | _ | _, rest, t⟩ := turn <;> cases ha <;> rfl

theorem next_answer {fuel : Nat} {d : Draw} (ha : (next h fuel p s).answer? = some d) :
    Sequence.next h fuel ⟨[], some p⟩ s =
      (d.answer, ⟨[], d.rest?⟩, (next h fuel p s).session) := by
  simp only [Sequence.next, pull]
  generalize next h fuel p s = turn at ha
  obtain ⟨(_ | v) | _ | _ | _, rest, t⟩ := turn <;> cases ha <;> rfl

theorem next_wait {fuel : Nat} {topic : Option Topic}
    (hw : (next h fuel p s).outcome = .pending topic) :
    Sequence.next h fuel ⟨[], some p⟩ s =
      (.pending topic, ⟨[], some (next h fuel p s).rest⟩, (next h fuel p s).session) := by
  simp only [Sequence.next, pull, hw]

theorem Settles.delivers {d : Draw} (hp : Settles h p s d t) :
    Sequence.Delivers h ⟨[], some p⟩ s [d.answer] ⟨[], d.rest?⟩ t := by
  induction hp with
  | @answers fuel p s d ha =>
    exact ⟨[⟨.next, d.answer⟩], by simp, by cases d <;> rfl,
      .single fuel (next_answer ha) (by cases d <;> nofun)⟩
  | @waits fuel p s topic d t hw _ ih =>
    have hwait : Sequence.Delivers h ⟨[], some p⟩ s [] ⟨[], some (next h fuel p s).rest⟩
        ((next h fuel p s).session.await topic) :=
      ⟨[⟨.next, .pending topic⟩], by simp, rfl, .wait topic (.single fuel (next_wait hw) nofun)⟩
    exact hwait.trans ih

/-- All answers can be had, in any session and after any waits. -/
theorem Responds.delivers (hp : Responds h p s os) (hu : u.calm = s) :
    ∃ q t, Sequence.Delivers h (.ofProducer p) u os q t := by
  induction hp generalizing u with
  | nil => exact ⟨_, u, [], by simp, rfl, .start⟩
  | item hd _ ih =>
    obtain ⟨w, hw, hs⟩ := hd.reaches u hu
    obtain ⟨q, t, hrest⟩ := ih hw
    exact ⟨q, t, hs.delivers.trans hrest⟩
  | finish n hd =>
    cases n with
    | zero => exact ⟨_, u, [], by simp, rfl, .start⟩
    | succ n =>
      obtain ⟨w, hw, hs⟩ := hd.reaches u hu
      exact ⟨_, w, hs.delivers.trans (delivers_spent n)⟩
  | failed n hd =>
    obtain ⟨w, hw, hs⟩ := hd.reaches u hu
    exact ⟨_, w, hs.delivers.trans (delivers_spent n)⟩

end Producer

end XPath
