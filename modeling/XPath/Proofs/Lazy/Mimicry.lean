import XPath.Proofs.Lazy.Requests

/-!
# Producers that do the same

A producer mimics another one if in every session it comes to the same outcome, leaves the same session,
and goes on mimicking the other one (`Producer.Mimics`). Its callers get the same answers
(`Producer.Mimics.delivers`), and so do those who are given what its items give rise to
(`Producer.Mimics.forEach`).
-/

namespace XPath

/-- The same outcome, with related rests. -/
inductive Draw.Matches (R : Producer → Producer → Prop) : Draw → Draw → Prop
  | item {v p q} : R p q → Matches R (.item v p) (.item v q)
  | finish : Matches R .finish .finish
  | failed {e} : Matches R (.failed e) (.failed e)

theorem Draw.Matches.imp {R R' : Producer → Producer → Prop} {d d' : Draw}
    (hd : d.Matches R d') (hR : ∀ p q, R p q → R' p q) : d.Matches R' d' := by
  cases hd with
  | item hr => exact .item (hR _ _ hr)
  | finish => exact .finish
  | failed => exact .failed

/-- An outcome matches itself, whatever else is related. -/
theorem Draw.matches_self (R : Producer → Producer → Prop) (d : Draw) :
    d.Matches (fun p q => p = q ∨ R p q) d := by
  cases d with
  | item => exact .item (.inl rfl)
  | finish => exact .finish
  | failed => exact .failed

namespace Producer

/-- Whatever the first one of two related producers comes to, the second one does, and the rests are
related again. -/
def Follows (h : Host) (R : Producer → Producer → Prop) : Prop :=
  ∀ p q, R p q → ∀ s d t, Draws h p s d t → ∃ d', d.Matches R d' ∧ Draws h q s d' t

/-- The second producer does in every session what the first one does. -/
def Mimics (h : Host) (p q : Producer) : Prop := ∃ R, Follows h R ∧ R p q

variable {h : Host} {p q : Producer} {s t u : Session} {d : Draw}

theorem Mimics.draws (hm : Mimics h p q) (hd : Draws h p s d t) :
    ∃ d', d.Matches (Mimics h) d' ∧ Draws h q s d' t := by
  obtain ⟨R, hR, hpq⟩ := hm
  obtain ⟨d', hmatch, hd'⟩ := hR p q hpq s d t hd
  exact ⟨d', hmatch.imp fun _ _ h => ⟨R, hR, h⟩, hd'⟩

theorem Mimics.responds {os : List (Attempt (Option Value))} (hm : Mimics h p q)
    (hp : Responds h p s os) : Responds h q s os := by
  induction hp generalizing q with
  | nil => exact .nil
  | item hd _ ih =>
    obtain ⟨_, ⟨hrest⟩ | _ | _, hd'⟩ := hm.draws hd
    exact .item hd' (ih hrest)
  | finish n hd =>
    obtain ⟨_, _ | _ | _, hd'⟩ := hm.draws hd
    exact .finish n hd'
  | failed n hd =>
    obtain ⟨_, _ | _ | _, hd'⟩ := hm.draws hd
    exact .failed n hd'

/-- Whoever asks for the next item, waiting as he likes, can get the same answers. -/
theorem Mimics.delivers {os : List (Attempt (Option Value))} {r : Sequence} (hm : Mimics h p q)
    (hp : Sequence.Delivers h (.ofProducer p) s os r t) :
    ∃ r t, Sequence.Delivers h (.ofProducer q) s os r t := by
  obtain ⟨xs, hnext, rfl, hserves⟩ := hp
  have hstage := hserves.stage (fun x hx => by rw [hnext x hx]; nofun) (.inl hnext)
  exact (hm.responds hstage.responds).delivers rfl

/-- Callers of the two producers who ask for the next item, waiting as they like, get the same answers. -/
def SameAnswers (h : Host) (s : Session) (p q : Producer) : Prop :=
  ∀ os, (∃ r t, Sequence.Delivers h (.ofProducer p) s os r t) ↔
    ∃ r t, Sequence.Delivers h (.ofProducer q) s os r t

theorem Mimics.sameAnswers (hpq : Mimics h p q) (hqp : Mimics h q p) (s : Session) :
    SameAnswers h s p q := by
  intro os
  constructor
  · rintro ⟨r, t, hp⟩
    exact hpq.delivers hp
  · rintro ⟨r, t, hq⟩
    exact hqp.delivers hq

/-! ## What items give rise to -/

/-- What items of the one and of the other producer give rise to, at the same point. -/
inductive Parallel (h : Host) (body : Nat → Value → Producer) (finish : Nat → Producer) :
    Producer → Producer → Prop
  | each {i p q} : Mimics h p q →
      Parallel h body finish (forEach i p body finish) (forEach i q body finish)
  | within {a i p q} : Mimics h p q →
      Parallel h body finish (append a fun _ => forEach i p body finish)
        (append a fun _ => forEach i q body finish)

theorem Parallel.draws {body : Nat → Value → Producer} {finish : Nat → Producer}
    (hpq : Parallel h body finish p q) (hd : Draws h p s d t) :
    ∃ d', d.Matches (fun a b => a = b ∨ Parallel h body finish a b) d' ∧ Draws h q s d' t := by
  induction hd generalizing q with
  | append_item hd =>
    cases hpq with
    | within hm => exact ⟨_, .item (.inr (.within hm)), .append_item hd⟩
  | append_finish hd _ _ ih =>
    cases hpq with
    | within hm =>
      obtain ⟨d', hmatch, hd'⟩ := ih (.each hm)
      exact ⟨d', hmatch, .append_finish hd hd'⟩
  | append_failed hd =>
    cases hpq with
    | within hm => exact ⟨_, .failed, .append_failed hd⟩
  | forEach_item hd _ _ ih =>
    cases hpq with
    | each hm =>
      obtain ⟨_, ⟨hrest⟩ | _ | _, hq⟩ := hm.draws hd
      obtain ⟨d', hmatch, hd'⟩ := ih (.within hrest)
      exact ⟨d', hmatch, .forEach_item hq hd'⟩
  | forEach_finish hd hfinish =>
    cases hpq with
    | each hm =>
      obtain ⟨_, _ | _ | _, hq⟩ := hm.draws hd
      exact ⟨_, Draw.matches_self _ _, .forEach_finish hq hfinish⟩
  | forEach_failed hd =>
    cases hpq with
    | each hm =>
      obtain ⟨_, _ | _ | _, hq⟩ := hm.draws hd
      exact ⟨_, .failed, .forEach_failed hq⟩
  | _ => cases hpq

/-- Items of producers that do the same give rise to the same. -/
theorem Mimics.forEach (hm : Mimics h p q) (i : Nat) (body : Nat → Value → Producer)
    (finish : Nat → Producer) : Mimics h (forEach i p body finish) (forEach i q body finish) := by
  refine ⟨fun a b => a = b ∨ Parallel h body finish a b, fun a b hab s d t hd => ?_, .inr (.each hm)⟩
  rcases hab with rfl | hab
  · exact ⟨d, Draw.matches_self _ d, hd⟩
  · exact hab.draws hd

end Producer

end XPath
