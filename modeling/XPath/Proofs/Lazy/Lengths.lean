import XPath.Proofs.Lazy.Readers

/-!
# Known lengths

The length of a shared sequence is known once its source is gone. Whatever is done with the sequence
makes turns of the source, and no request of a reader does anything else (`Sequence.serve_keeps`,
`Shared.Handled.stage`). So the length is known as soon as the end has been met, and not before
(`Shared.length_known`). An error takes the source away as well: from then on the items before it are
counted as if there had been no error (`Shared.length_after_failure`).
-/

namespace XPath

open Producer

/-! ## What requests keep -/

namespace Sequence

variable {h : Host} {P : Option Producer → Session → Prop} {q q' : Sequence} {t t' : Session}

/-- Whatever pulling keeps of the source and the session. -/
def PullKeeps (h : Host) (P : Option Producer → Session → Prop) : Prop :=
  ∀ fuel (q : Sequence) t, P q.source t → (q.pull h fuel t).1 ≠ .exhausted →
    P (q.pull h fuel t).2.1.source (q.pull h fuel t).2.2

theorem fill_keeps (hP : PullKeeps h P) (limit : Option Nat) (fuel : Nat) (hq : P q.source t)
    (ho : (q.fill h limit fuel t).1 ≠ .exhausted) :
    P (q.fill h limit fuel t).2.1.source (q.fill h limit fuel t).2.2 := by
  induction fuel generalizing q t with
  | zero => exact absurd rfl ho
  | succ fuel ih =>
    rw [fill] at ho ⊢
    split at ho
    next hl =>
      rw [if_pos hl]
      exact hq
    next hl =>
      rw [if_neg hl]
      have hpull := hP fuel q t hq
      generalize q.pull h fuel t = result at hpull ho
      obtain ⟨(_ | v) | topic | e | _, q', t'⟩ := result
      case ready.some => exact ih (hpull (by simp)) ho
      case exhausted => exact absurd rfl ho
      all_goals exact hpull (by simp)

theorem peek_keeps {α : Type} (hP : PullKeeps h P) (fuel limit : Nat)
    (answer : List Value → Attempt α) (hq : P q.source t)
    (ho : (q.peek h fuel limit answer t).1 ≠ .exhausted) :
    P (q.peek h fuel limit answer t).2.1.source (q.peek h fuel limit answer t).2.2 := by
  have hfill := fill_keeps hP (some limit) fuel hq
  unfold peek at ho ⊢
  generalize q.fill h (some limit) fuel t = result at hfill ho
  obtain ⟨_ | topic | e | _, q', t'⟩ := result
  case exhausted => exact absurd rfl ho
  all_goals exact hfill (by simp)

theorem truth_keeps (hP : PullKeeps h P) (fuel : Nat) (hq : P q.source t)
    (ho : (q.truth h fuel t).1 ≠ .exhausted) :
    P (q.truth h fuel t).2.1.source (q.truth h fuel t).2.2 := by
  have hfirst := peek_keeps hP fuel 1 (fun buffer => .ready buffer.head?) hq
  unfold truth first at ho ⊢
  generalize q.peek h fuel 1 _ t = result at hfirst ho
  obtain ⟨(_ | v) | topic | e | _, q', t'⟩ := result
  case exhausted => exact absurd rfl ho
  case ready.some =>
    have hq' : P q'.source t' := hfirst (by simp)
    cases v with
    | node n => exact hq'
    | _ => exact peek_keeps hP fuel 2 _ hq' ho
  all_goals exact hfirst (by simp)

/-- What pulling keeps, every request keeps. -/
theorem serve_keeps (hP : PullKeeps h P) (fuel : Nat) (r : Request) (hq : P q.source t)
    (ho : (q.serve h fuel t r).1 ≠ .exhausted) :
    P (q.serve h fuel t r).2.1.source (q.serve h fuel t r).2.2 := by
  cases r with
  | next =>
    obtain ⟨_ | ⟨v, rest⟩, source⟩ := q
    · exact hP fuel ⟨[], source⟩ t hq ho
    · exact hq
  | first | cardinality => exact peek_keeps hP fuel _ _ hq ho
  | truth => exact truth_keeps hP fuel hq ho
  | drain =>
    have hfill := fill_keeps hP none fuel hq
    change (q.drain h fuel t).1 ≠ .exhausted at ho
    change P (q.drain h fuel t).2.1.source (q.drain h fuel t).2.2
    unfold drain at ho ⊢
    generalize q.fill h none fuel t = result at hfill ho
    obtain ⟨_ | topic | e | _, q', t'⟩ := result
    case exhausted => exact absurd rfl ho
    all_goals exact hfill (by simp)

end Sequence

/-! ## Everything that can be done with a shared sequence -/

/-- Readers of a shared sequence are created and asked for anything, items are fetched and all of them
taken, each time with fuel enough, and suspensions are waited for. -/
inductive Shared.Handled (h : Host) (shared : Shared) (s : Session) : List Sequence → Session → Prop
  | start : Handled h shared s [] s
  | wait {qs : List Sequence} {t : Session} (topic : Option Topic) :
      Handled h shared s qs t → Handled h shared s qs (t.await topic)
  | reader {qs : List Sequence} {t : Session} :
      Handled h shared s qs t → Handled h shared s (qs ++ [.ofProducer (.reader shared)]) t
  | request {qs : List Sequence} {t t' : Session} {k : Nat} {q q' : Sequence} {r : Request}
      {o : Attempt r.Answer} (fuel : Nat) :
      Handled h shared s qs t → qs[k]? = some q → q.serve h fuel t r = (o, q', t') →
      o ≠ .exhausted → Handled h shared s (qs.set k q') t'
  | fetch {qs : List Sequence} {t t' : Session} {i : Nat} {o : Attempt (Option Value)}
      (fuel : Nat) :
      Handled h shared s qs t → shared.fetch h fuel i t = (o, t') → o ≠ .exhausted →
      Handled h shared s qs t'
  | items {qs : List Sequence} {t t' : Session} {o : Attempt (List Value)} (fuel : Nat) :
      Handled h shared s qs t → shared.items h fuel t = (o, t') → o ≠ .exhausted →
      Handled h shared s qs t'

variable {h : Host} {c : Nat} {s t : Session} {x : Supply} {p : Producer} {qs : List Sequence}

/-- The source of a reader of the cell. -/
def ReaderSource (c : Nat) (source : Option Producer) : Prop :=
  ∀ p, source = some p → ∃ n, Reading c n p

/-- Pulling from a reader makes turns of the source of the cell. -/
theorem Sequence.pullKeeps_reader (hs : s.Stores c .start) :
    PullKeeps h fun source t => (∃ turns, Advances h c s turns t) ∧ ReaderSource c source := by
  rintro fuel ⟨buffer, _ | p⟩ t ⟨⟨turns, ha⟩, hsource⟩ ho
  · exact ⟨⟨turns, ha⟩, hsource⟩
  · obtain ⟨n, hp⟩ := hsource p rfl
    simp only [pull] at ho ⊢
    have hne : (Producer.next h fuel p t).outcome ≠ .exhausted := by
      intro he
      simp only [he, ne_eq, not_true_eq_false] at ho
    obtain ⟨turns', u, ha', hread⟩ := ha.read hs hp hne
    generalize Producer.next h fuel p t = turn at hread
    cases hread with
    | item => exact ⟨⟨_, ha.trans ha'⟩, fun p hp => ⟨n + 1, by cases hp; exact .call⟩⟩
    | finish | failed => exact ⟨⟨_, ha.trans ha'⟩, by rintro _ ⟨⟩⟩
    | pending => exact ⟨⟨_, ha.trans ha'⟩, fun p hp => ⟨n, by cases hp; exact .fetch⟩⟩

/-- Whatever has been done, the source has made turns, and the readers are readers. -/
theorem Shared.Handled.stage (hs : s.Stores c .start) (hrun : Shared.Handled h (.cell c) s qs t) :
    (∃ turns, Advances h c s turns t) ∧ ∀ q ∈ qs, ReaderSource c q.source := by
  induction hrun with
  | start => exact ⟨⟨[], .start⟩, by simp⟩
  | wait topic _ ih =>
    obtain ⟨⟨turns, ha⟩, hqs⟩ := ih
    exact ⟨⟨turns, .wait topic ha⟩, hqs⟩
  | reader _ ih =>
    refine ⟨ih.1, fun q hq => ?_⟩
    rcases List.mem_append.1 hq with hq | hq
    · exact ih.2 q hq
    · rw [List.mem_singleton.1 hq]
      rintro _ ⟨⟩
      exact ⟨0, .call⟩
  | @request qs t t' k q q' r o fuel _ hk hq ho ih =>
    have hkept := Sequence.serve_keeps (Sequence.pullKeeps_reader hs) fuel r
      ⟨ih.1, ih.2 q (List.mem_of_getElem? hk)⟩ (by rwa [hq])
    rw [hq] at hkept
    refine ⟨hkept.1, fun q₁ hq₁ => ?_⟩
    rcases List.mem_or_eq_of_mem_set hq₁ with hq₁ | rfl
    · exact ih.2 q₁ hq₁
    · exact hkept.2
  | fetch fuel _ hf ho ih =>
    obtain ⟨⟨turns, ha⟩, hqs⟩ := ih
    obtain ⟨turns', ha', -⟩ := ha.fetched hs hf ho
    exact ⟨⟨_, ha.trans ha'⟩, hqs⟩
  | items fuel _ hc ho ih =>
    obtain ⟨⟨turns, ha⟩, hqs⟩ := ih
    obtain ⟨turns', ha', -⟩ := ha.collected (n := 0) hs .call rfl (Nat.zero_le _) hc ho
    exact ⟨⟨_, ha.trans ha'⟩, hqs⟩

/-! ## The length -/

/-- The length is known once the source has come to an end of any kind. -/
theorem Session.Stores.length? (hx : t.Stores c x) :
    t.length? (.cell c) = x.ending.map fun _ => x.items.length := by
  obtain ⟨source, hcell, hsource⟩ := hx
  rw [Session.length?, hcell]
  cases he : x.ending with
  | none =>
    cases source with
    | none => exact absurd he (hsource.1 rfl)
    | some p => rfl
  | some e =>
    obtain rfl := hsource.2 (by simp [he])
    simp

/-- Whatever is done with a shared sequence, its source is only advanced turn by turn, and what the turns
made known is what the source supplies. Unless the source has failed, a length is known if and only if the
source has met its end, and it is the number of items before the end. After a failure it is the number of
items before the error. -/
theorem Shared.length_known (hrun : Shared.Handled h (s.allocate p).1 (s.allocate p).2 qs t) :
    ∃ turns, Advances h s.cells.size (s.allocate p).2 turns t ∧
      Supplies h s.cells.size (s.allocate p).2.calm (.ofTurns turns) ∧
      ((∀ e, (Supply.ofTurns turns).ending ≠ some (some e)) →
        ∀ n, t.length? (s.allocate p).1 = some n ↔
          (Supply.ofTurns turns).ending = some none ∧ (Supply.ofTurns turns).items.length = n) ∧
      ∀ e, (Supply.ofTurns turns).ending = some (some e) →
        t.length? (s.allocate p).1 = some (Supply.ofTurns turns).items.length := by
  have hs := s.stores_allocate p
  obtain ⟨⟨turns, ha⟩, -⟩ := hrun.stage hs
  have hlength := (ha.stores hs).length?
  refine ⟨turns, ha, (ha.follows hs).supplies, fun hne n => ?_, fun e he => ?_⟩
  · change t.length? (.cell _) = some n ↔ _
    rw [hlength]
    rcases he : (Supply.ofTurns turns).ending with _ | _ | e
    · simp
    · simp
    · exact absurd he (hne e)
  · change t.length? (.cell _) = _
    rw [hlength, he, Option.map_some]

/-- An item with a suspension before it and another one before the end. -/
def single : Producer := .pause (.emit (.integer 1) (.pause .done))

/-- A reader is asked for the number of items while another one waits, and the first item is fetched. -/
theorem Shared.length_known_single :
    ∃ turns t, Advances .absent 0 (Session.empty.allocate single).2 turns t ∧
      t.length? (.cell 0) = some 1 ∧ (Supply.ofTurns turns).ending = some none ∧
      (Supply.ofTurns turns).items.length = 1 := by
  have hrun : Shared.Handled .absent (Session.empty.allocate single).1
      (Session.empty.allocate single).2 [⟨[.integer 1], none⟩, ⟨[], some (.reader (.cell 0))⟩] _ :=
    .request (k := 0) (r := .cardinality) 8 (.reader (.wait none (.request (k := 0) (r := .cardinality) 8
      (.fetch (i := 0) 8 (.wait none (.fetch (i := 0) 8 (.reader .start) rfl (by rintro ⟨⟩))) rfl (by rintro ⟨⟩))
      rfl rfl (by rintro ⟨⟩)))) rfl rfl (by rintro ⟨⟩)
  obtain ⟨turns, ha, hx, hlength, -⟩ := Shared.length_known hrun
  have hall : Supplies .absent 0 (Session.empty.allocate single).2.calm
      (Supply.after [.integer 1] ⟨[], some none⟩) :=
    .item rfl (.pause .emit) (.finish rfl (.pause .done))
  have hne : ∀ e, (Supply.ofTurns turns).ending ≠ some (some e) := by
    intro e he
    rcases hx.comparable hall with hg | hg
    · have heq := hg.2 (by simp [he])
      rw [← heq] at he
      cases he
    · have heq := hg.2 (by rintro ⟨⟩)
      rw [heq] at he
      cases he
  exact ⟨turns, _, ha, rfl, (hlength hne 1).1 rfl⟩

/-- The source fails after its first item, and a length is known. -/
theorem Shared.length_after_failure : ∃ t, Shared.Handled .absent (.cell 0)
      (Session.empty.allocate (.emit (.integer 1) (.fail outage))).2 [] t ∧
    (Shared.cell 0).fetch .absent 4 1
      (Session.empty.allocate (.emit (.integer 1) (.fail outage))).2 = (.failed outage, t) ∧
    t.length? (.cell 0) = some 1 := ⟨_, .fetch (i := 1) 4 .start rfl (by rintro ⟨⟩), rfl, rfl⟩

end XPath
