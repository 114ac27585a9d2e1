import XPath.Lazy.ItemAtomization
import XPath.Proofs.Lazy.Requests
import XPath.Proofs.Library.Invariance

/-!
# What the machine keeps

If all atomic values in the cells of a session have a property that operations keep, then a turn of a
producer with the property gives only such values, and leaves a producer and a session of the same kind,
however it ends (`Producer.next_all`). The same goes for whatever is asked of a sequence, for items of
shared sequences and for the atomization of a single item.
-/

namespace XPath

/-- What it comes to, if it is an answer, has the property. -/
def Attempt.All {α : Type} (Q : α → Prop) (x : Attempt α) : Prop := ∀ a, x = .ready a → Q a

variable {P : Atomic → Prop} {h : Host}

namespace Attempt.All

variable {α : Type} {Q : α → Prop}

theorem ready {a : α} (ha : Q a) : Attempt.All Q (.ready a) := by
  rintro _ ⟨⟩
  exact ha

theorem pending {topic : Option Topic} : Attempt.All Q (.pending topic) := fun _ h => nomatch h

theorem failed {e : Error} : Attempt.All Q (.failed e) := fun _ h => nomatch h

theorem exhausted : Attempt.All Q .exhausted := fun _ h => nomatch h

theorem true {x : Attempt α} : x.All fun _ => True := fun _ _ => trivial

end Attempt.All

/-! ## Sessions -/

structure Cell.All (P : Atomic → Prop) (c : Cell) : Prop where
  items : ∀ v ∈ c.items, v.All P
  source : ∀ p ∈ c.source, p.All P

/-- What the cells hold, and what there is left to compute of them, has the property. -/
def Session.All (P : Atomic → Prop) (s : Session) : Prop := ∀ c ∈ s.cells, c.All P

inductive Lookup.All (P : Atomic → Prop) : Lookup → Prop
  | item {v : Value} : v.All P → Lookup.All P (.item v)
  | finish : Lookup.All P .finish
  | failed (e : Error) : Lookup.All P (.failed e)
  | unread {cell : Nat} {source : Producer} : source.All P → Lookup.All P (.unread cell source)

namespace Session.All

variable {s : Session} {p : Producer} {v : Value} {id : Nat}

theorem empty : Session.empty.All P := Array.forall_mem_empty _

theorem modify (hs : s.All P) {f : Cell → Cell} (hf : ∀ c, c.All P → (f c).All P) :
    ∀ c ∈ s.cells.modify id f, c.All P := by
  intro c hc
  obtain ⟨i, hi⟩ := Array.mem_iff_getElem?.1 hc
  rw [Array.getElem?_modify] at hi
  split at hi
  · obtain ⟨c', hc', rfl⟩ := Option.map_eq_some_iff.1 hi
    exact hf c' (hs c' (Array.mem_of_getElem? hc'))
  · exact hs c (Array.mem_of_getElem? hi)

theorem detach (hs : s.All P) : (s.detach id).All P := by
  rw [Session.All, Session.cells_detach]
  exact hs.modify fun _ hc => ⟨hc.items, Option.forall_mem_none _⟩

theorem attach (hs : s.All P) (hp : p.All P) : (s.attach id p).All P := by
  rw [Session.All, Session.cells_attach]
  exact hs.modify fun _ hc => ⟨hc.items, Option.forall_mem_some hp⟩

theorem keep (hs : s.All P) (hv : v.All P) (hp : p.All P) : (s.keep id v p).All P := by
  rw [Session.All, Session.cells_keep]
  exact hs.modify fun c hc => ⟨Array.forall_mem_push.2 ⟨hv, hc.items⟩, Option.forall_mem_some hp⟩

theorem spoil (hs : s.All P) (e : Error) : (s.spoil id e).All P := by
  rw [Session.All, Session.cells_spoil]
  exact hs.modify fun _ hc => ⟨hc.items, hc.source⟩

theorem allocate (hs : s.All P) (hp : p.All P) : (s.allocate p).2.All P := by
  rw [Session.All, Session.cells_allocate]
  exact Array.forall_mem_push.2 ⟨⟨Array.forall_mem_empty _, Option.forall_mem_some hp⟩, hs⟩

theorem ask (hs : s.All P) (q : Query) : (s.ask h q).2.All P := by
  rw [Session.All, Session.cells_ask]
  exact hs

theorem look (hs : s.All P) {shared : Shared} (h : shared.All P) (i : Nat) :
    (s.look shared i).All P := by
  cases h with
  | @listed vs hv =>
    rw [Session.look]
    split
    · next v hi => exact .item (hv v (List.mem_of_getElem? hi))
    · exact .finish
  | cell id =>
    rw [Session.look]
    split
    · exact .finish
    · next c hc =>
      have hcell := hs c (Array.mem_of_getElem? hc)
      split
      · next hi => exact .item (hcell.items _ (Array.mem_of_getElem? hi))
      · exact .failed _
      · next hsource => exact .unread (hcell.source _ hsource)
      · exact .finish

end Session.All

/-! ## Turns -/

structure Turn.All (P : Atomic → Prop) (t : Turn) : Prop where
  outcome : t.outcome.All fun x => ∀ v ∈ x, v.All P
  rest : t.rest.All P
  session : t.session.All P

namespace Turn.All

variable {t : Turn} {s : Session} {p : Producer}

theorem finished (hs : s.All P) : (Turn.finished s).All P := ⟨.ready (Option.forall_mem_none _), .done, hs⟩

theorem failed (e : Error) (hs : s.All P) : (Turn.failed e s).All P := ⟨.failed, .done, hs⟩

theorem pending (topic : Option Topic) (hp : p.All P) (hs : s.All P) :
    Turn.All P ⟨.pending topic, p, s⟩ := ⟨.pending, hp, hs⟩

theorem exhausted (hp : p.All P) (hs : s.All P) : Turn.All P ⟨.exhausted, p, s⟩ := ⟨.exhausted, hp, hs⟩

theorem item {v : Value} (hv : v.All P) (hp : p.All P) (hs : s.All P) :
    Turn.All P ⟨.ready (some v), p, s⟩ := ⟨.ready (Option.forall_mem_some hv), hp, hs⟩

/-- What comes after a turn of an inner producer. -/
theorem andThen {around : Producer → Producer} {item : Value → Producer → Session → Turn}
    {finish : Session → Turn} (ht : t.All P) (haround : ∀ p : Producer, p.All P → (around p).All P)
    (hitem : ∀ (v : Value) (p : Producer) (s : Session), v.All P → p.All P → s.All P →
      (item v p s).All P)
    (hfinish : ∀ s : Session, s.All P → (finish s).All P) : (t.andThen around item finish).All P := by
  obtain ⟨outcome, rest, session⟩ := t
  obtain ⟨ho, hrest, hs⟩ := ht
  rcases outcome with (_ | v) | topic | e | _
  · exact hfinish session hs
  · exact hitem v rest session (ho _ rfl v rfl) hrest hs
  · exact .pending topic (haround rest hrest) hs
  · exact .failed e hs
  · exact .exhausted (haround rest hrest) hs

end Turn.All

namespace Producer

/-- A turn gives only values with the property, and keeps to it. -/
theorem next_all (hP : Atomic.Kept P) (fuel : Nat) {p : Producer} {s : Session} (hp : p.All P)
    (hs : s.All P) : (p.next h fuel s).All P := by
  induction fuel generalizing p s with
  | zero => exact .exhausted hp hs
  | succ fuel ih =>
    cases hp with
    | done => exact .finished hs
    | fail e => exact .failed e hs
    | emit hv hp => exact .item hv hp hs
    | append hp hq =>
      rw [next]
      refine (ih hp hs).andThen (fun _ hp => .append hp hq) ?_ fun s hs => ih hq hs
      exact fun _ _ _ hv hp hs => .item hv (.append hp hq) hs
    | @ask q k hk =>
      have hask := hs.ask (h := h) q
      dsimp only [next]
      generalize s.ask h q = result at hask
      obtain ⟨answer | topic | e | _, s⟩ := result
      · exact ih (hk answer) hask
      · exact .pending topic (.ask hk) hask
      · exact .failed e hask
      · exact .exhausted (.ask hk) hask
    | @fetch shared i k hshared hk =>
      have hlook := hs.look hshared i
      dsimp only [next]
      generalize s.look shared i = found at hlook
      cases hlook with
      | item hv => exact ih (hk _ (Option.forall_mem_some hv)) hs
      | finish => exact ih (hk none (Option.forall_mem_none _)) hs
      | failed e => exact .failed e hs
      | @unread cell source hsource =>
        obtain ⟨ho, hrest, hsession⟩ := ih hsource (hs.detach : (s.detach cell).All P)
        dsimp only
        generalize (next h fuel source (s.detach cell)).outcome = outcome at ho
        rcases outcome with (_ | v) | topic | e | _
        · exact ih (hk none (Option.forall_mem_none _)) hsession
        · exact ih (.fetch hshared hk) (hsession.keep (ho _ rfl v rfl) hrest)
        · exact .pending topic (.fetch hshared hk) (hsession.attach hrest)
        · exact .failed e (hsession.spoil e)
        · exact .exhausted (.fetch hshared hk) (hsession.attach hrest)
    | length hk => exact ih (hk _) hs
    | share hp hk => exact ih (hk _ (.cell _)) (hs.allocate hp)
    | @gather step i kept source k hp hkept hstep hk =>
      rw [next]
      refine (ih hp hs).andThen (fun _ hp => .gather hp hkept hstep hk) ?_ fun s hs =>
        ih (hk kept hkept) hs
      intro v source s hv hp hs
      have hgathered := hstep i kept v hkept hv
      generalize step i kept v = gathered at hgathered
      cases hgathered with
      | more hkept => exact ih (.gather hp hkept hstep hk) hs
      | enough hkept => exact ih (hk _ hkept) hs
      | fail e => exact .failed e hs
    | forEach hp hbody hfinish =>
      rw [next]
      refine (ih hp hs).andThen (fun _ hp => .forEach hp hbody hfinish) ?_ fun s hs =>
        ih (hfinish _) hs
      exact fun v _ _ hv hp hs => ih (.append (hbody _ v hv) (.forEach hp hbody hfinish)) hs
    | @apply f c ps k hf hc hps hk =>
      have hreply := Function.invoke_all hP hc hf hps
      dsimp only [next]
      cases hr : f.invoke c ps with
      | ok p => exact ih (.share (hreply p hr) hk) hs
      | error e => exact .failed e hs
    | call hc => exact ih (hc.body hP) hs
    | log hp => exact ih hp hs
    | pause hp => exact .pending none hp hs
    | tick hp => exact ih hp hs

theorem collect_all (hP : Atomic.Kept P) (fuel : Nat) {drawn : List Value} {p : Producer} {s : Session}
    (hdrawn : ∀ v ∈ drawn, v.All P) (hp : p.All P) (hs : s.All P) :
    (p.collect h fuel drawn s).1.All (fun vs => ∀ v ∈ vs, v.All P) ∧
      (p.collect h fuel drawn s).2.All P := by
  induction fuel generalizing drawn p s with
  | zero => exact ⟨.exhausted, hs⟩
  | succ fuel ih =>
    have hturn := next_all hP fuel hp hs (h := h)
    dsimp only [collect]
    generalize next h fuel p s = t at hturn
    obtain ⟨outcome, rest, session⟩ := t
    obtain ⟨ho, hrest, hs⟩ := hturn
    rcases outcome with (_ | v) | topic | e | _
    · exact ⟨.ready (List.forall_mem_reverse hdrawn), hs⟩
    · exact ih (List.forall_mem_cons.2 ⟨ho _ rfl v rfl, hdrawn⟩) hrest hs
    · exact ⟨.pending, hs⟩
    · exact ⟨.failed, hs⟩
    · exact ⟨.exhausted, hs⟩

end Producer

namespace Shared

variable {shared : Shared} {s : Session}

theorem fetch_all (hP : Atomic.Kept P) (fuel : Nat) (hshared : shared.All P) (i : Nat) (hs : s.All P) :
    (shared.fetch h fuel i s).1.All (fun x => ∀ v ∈ x, v.All P) ∧ (shared.fetch h fuel i s).2.All P := by
  refine (fun ht : Turn.All P _ => ⟨ht.outcome, ht.session⟩)
    (Producer.next_all hP fuel (.fetch hshared fun x hx => ?_) hs)
  cases x with
  | none => exact .done
  | some v => exact .singleton (hx v rfl)

theorem items_all (hP : Atomic.Kept P) (fuel : Nat) (hshared : shared.All P) (hs : s.All P) :
    (shared.items h fuel s).1.All (fun vs => ∀ v ∈ vs, v.All P) ∧ (shared.items h fuel s).2.All P :=
  Producer.collect_all hP fuel (List.forall_mem_nil _) (.reader hshared) hs

end Shared

/-! ## Sequences -/

structure Sequence.All (P : Atomic → Prop) (q : Sequence) : Prop where
  buffer : ∀ v ∈ q.buffer, v.All P
  source : ∀ p ∈ q.source, p.All P

/-- The answer, the sequence and the session have the property. -/
structure Sequence.Upheld {α : Type} (P : Atomic → Prop) (Q : α → Prop) (result : Sequence.Result α) :
    Prop where
  answer : result.1.All Q
  sequence : result.2.1.All P
  session : result.2.2.All P

namespace Sequence

variable {q : Sequence} {s : Session}

theorem all_ofProducer {p : Producer} (hp : p.All P) : (ofProducer p).All P :=
  ⟨List.forall_mem_nil _, Option.forall_mem_some hp⟩

theorem pull_all (hP : Atomic.Kept P) (fuel : Nat) (hq : q.All P) (hs : s.All P) :
    Upheld P (fun x => ∀ v ∈ x, v.All P) (q.pull h fuel s) := by
  obtain ⟨buffer, source⟩ := q
  obtain ⟨hbuffer, hsource⟩ := hq
  cases source with
  | none => exact ⟨.ready (Option.forall_mem_none _), ⟨hbuffer, Option.forall_mem_none _⟩, hs⟩
  | some p =>
    have hturn := Producer.next_all hP fuel (hsource p rfl) hs (h := h)
    dsimp only [pull]
    generalize Producer.next h fuel p s = t at hturn
    obtain ⟨outcome, rest, session⟩ := t
    obtain ⟨ho, hrest, hs⟩ := hturn
    have hkept := Option.forall_mem_some hrest
    rcases outcome with (_ | v) | topic | e | _
    · exact ⟨ho, ⟨hbuffer, Option.forall_mem_none _⟩, hs⟩
    · exact ⟨ho, ⟨hbuffer, hkept⟩, hs⟩
    · exact ⟨ho, ⟨hbuffer, hkept⟩, hs⟩
    · exact ⟨ho, ⟨hbuffer, Option.forall_mem_none _⟩, hs⟩
    · exact ⟨ho, ⟨hbuffer, hkept⟩, hs⟩

theorem fill_all (hP : Atomic.Kept P) (limit : Option Nat) (fuel : Nat) (hq : q.All P) (hs : s.All P) :
    Upheld P (fun _ => True) (q.fill h limit fuel s) := by
  induction fuel generalizing q s with
  | zero => exact ⟨.true, hq, hs⟩
  | succ fuel ih =>
    rw [fill]
    split
    · exact ⟨.true, hq, hs⟩
    have hpull := pull_all hP fuel hq hs (h := h)
    generalize q.pull h fuel s = result at hpull
    obtain ⟨(_ | v) | topic | e | _, q, s⟩ := result
    case ready.some =>
      refine ih ⟨List.forall_mem_append.2 ⟨hpull.sequence.buffer, ?_⟩, hpull.sequence.source⟩ hpull.session
      exact List.forall_mem_singleton.2 (hpull.answer _ rfl v rfl)
    all_goals exact ⟨.true, hpull.sequence, hpull.session⟩

theorem peek_all {α : Type} {Q : α → Prop} (hP : Atomic.Kept P) (fuel limit : Nat)
    {answer : List Value → Attempt α} (hanswer : ∀ vs, (∀ v ∈ vs, v.All P) → (answer vs).All Q)
    (hq : q.All P) (hs : s.All P) : Upheld P Q (q.peek h fuel limit answer s) := by
  have hfill := fill_all hP (some limit) fuel hq hs (h := h)
  rw [peek]
  generalize q.fill h (some limit) fuel s = result at hfill
  obtain ⟨_ | topic | e | _, q, s⟩ := result
  · exact ⟨hanswer _ hfill.sequence.buffer, hfill.sequence, hfill.session⟩
  · exact ⟨.pending, hfill.sequence, hfill.session⟩
  · exact ⟨.failed, hfill.sequence, hfill.session⟩
  · exact ⟨.exhausted, hfill.sequence, hfill.session⟩

theorem next_all (hP : Atomic.Kept P) (fuel : Nat) (hq : q.All P) (hs : s.All P) :
    Upheld P (fun x => ∀ v ∈ x, v.All P) (q.next h fuel s) := by
  obtain ⟨_ | ⟨v, rest⟩, source⟩ := q
  · exact pull_all hP fuel hq hs
  · obtain ⟨hv, hrest⟩ := List.forall_mem_cons.1 hq.buffer
    exact ⟨.ready (Option.forall_mem_some hv), ⟨hrest, hq.source⟩, hs⟩

theorem first_all (hP : Atomic.Kept P) (fuel : Nat) (hq : q.All P) (hs : s.All P) :
    Upheld P (fun x => ∀ v ∈ x, v.All P) (q.first h fuel s) :=
  peek_all hP fuel 1 (fun _ hvs => .ready fun v hv => hvs v (List.mem_of_mem_head? hv)) hq hs

theorem cardinality_all (hP : Atomic.Kept P) (fuel : Nat) (hq : q.All P) (hs : s.All P) :
    Upheld P (fun _ => True) (q.cardinality h fuel s) := peek_all hP fuel 2 (fun _ _ => .true) hq hs

theorem truth_all (hP : Atomic.Kept P) (fuel : Nat) (hq : q.All P) (hs : s.All P) :
    Upheld P (fun _ => True) (q.truth h fuel s) := by
  have hfirst := first_all hP fuel hq hs (h := h)
  rw [truth]
  generalize q.first h fuel s = result at hfirst
  obtain ⟨(_ | v) | topic | e | _, q, s⟩ := result
  case ready.some =>
    cases v with
    | node n => exact ⟨.true, hfirst.sequence, hfirst.session⟩
    | _ => exact peek_all hP fuel 2 (fun _ _ => .true) hfirst.sequence hfirst.session
  all_goals exact ⟨.true, hfirst.sequence, hfirst.session⟩

theorem drain_all (hP : Atomic.Kept P) (fuel : Nat) (hq : q.All P) (hs : s.All P) :
    Upheld P (fun vs => ∀ v ∈ vs, v.All P) (q.drain h fuel s) := by
  have hfill := fill_all hP none fuel hq hs (h := h)
  rw [drain]
  generalize q.fill h none fuel s = result at hfill
  obtain ⟨_ | topic | e | _, q, s⟩ := result
  · exact ⟨.ready hfill.sequence.buffer, ⟨List.forall_mem_nil _, hfill.sequence.source⟩, hfill.session⟩
  · exact ⟨.pending, hfill.sequence, hfill.session⟩
  · exact ⟨.failed, hfill.sequence, hfill.session⟩
  · exact ⟨.exhausted, hfill.sequence, hfill.session⟩

end Sequence

/-- The items in an answer. -/
def Request.items : (r : Request) → r.Answer → List Value
  | .next, x | .first, x => x.toList
  | .cardinality, _ | .truth, _ => []
  | .drain, vs => vs

/-- Whatever is asked of a sequence, its items have the property. -/
theorem Sequence.serve_all (hP : Atomic.Kept P) (fuel : Nat) {q : Sequence} {s : Session} (hq : q.All P)
    (hs : s.All P) (r : Request) :
    Upheld P (fun answer => ∀ v ∈ r.items answer, v.All P) (q.serve h fuel s r) := by
  cases r with
  | next =>
    obtain ⟨ha, hq, hs⟩ := next_all hP fuel hq hs (h := h)
    exact ⟨fun x hx v hv => ha x hx v (Option.mem_toList.1 hv), hq, hs⟩
  | first =>
    obtain ⟨ha, hq, hs⟩ := first_all hP fuel hq hs (h := h)
    exact ⟨fun x hx v hv => ha x hx v (Option.mem_toList.1 hv), hq, hs⟩
  | cardinality =>
    obtain ⟨-, hq, hs⟩ := cardinality_all hP fuel hq hs (h := h)
    exact ⟨fun _ _ => List.forall_mem_nil _, hq, hs⟩
  | truth =>
    obtain ⟨-, hq, hs⟩ := truth_all hP fuel hq hs (h := h)
    exact ⟨fun _ _ => List.forall_mem_nil _, hq, hs⟩
  | drain => exact drain_all hP fuel hq hs

/-! ## Atomizing single items -/

/-- What it gives, or has yet to give, has the property. -/
inductive ItemAtomization.All (P : Atomic → Prop) : ItemAtomization → Prop
  | value {a : Once Atomic} : (∀ b ∈ a.value, P b) → ItemAtomization.All P (.value a)
  | asking {now afterwards : Producer} : now.All P → afterwards.All P →
      ItemAtomization.All P (.asking now afterwards)

namespace ItemAtomization

theorem start_all (hP : Atomic.Kept P) {v : Value} (hv : v.All P) :
    (start v).All (ItemAtomization.All P) := by
  cases hv with
  | atomic ha =>
    exact .ok (.value (Option.forall_mem_some ha))
  | node n =>
    have hreading := Producer.All.typedValue hP .live n fun a ha => .atomic ha
    refine .ok (.asking hreading ?_)
    split
    · exact .atomic (hP.untyped "")
    · exact hreading
  | array | map | function => exact .error

theorem resume_all (hP : Atomic.Kept P) (fuel : Nat) {i : ItemAtomization} {s : Session}
    (hi : i.All P) (hs : s.All P) :
    (i.resume h fuel s).1.All (fun x => ∀ v ∈ x, v.All P) ∧ (i.resume h fuel s).2.1.All P ∧
      (i.resume h fuel s).2.2.All P := by
  cases hi with
  | @value a ha =>
    have spent : (ItemAtomization.value ⟨none⟩).All P := .value (Option.forall_mem_none P)
    obtain ⟨_ | a⟩ := a
    · exact ⟨.failed, spent, hs⟩
    · exact ⟨.ready (Option.forall_mem_some (.atomic (ha a rfl))), spent, hs⟩
  | @asking now afterwards hnow hafter =>
    have hturn := Producer.next_all hP fuel hnow hs (h := h)
    dsimp only [resume]
    generalize Producer.next h fuel now s = t at hturn
    obtain ⟨outcome, rest, session⟩ := t
    obtain ⟨ho, hrest, hs⟩ := hturn
    rcases outcome with x | topic | e | _
    · exact ⟨ho, .asking hafter hafter, hs⟩
    · exact ⟨ho, .asking hrest hafter, hs⟩
    · exact ⟨.failed, .asking hnow hafter, hs⟩
    · exact ⟨ho, .asking hrest hafter, hs⟩

end ItemAtomization

end XPath
