import XPath.Proofs.Lazy.Promises
import XPath.Proofs.Lazy.Supply

/-!
# Readers of a shared sequence

A shared sequence is used by any number of readers, by fetching items and by taking all of them, in any
order and with waits in between. All of this only ever makes turns of the one source, and every answer
is what the turns made known (`Shared.Used.alike`). What is supplied can be had by asking for it, whatever
the others have done meanwhile (`Shared.Used.fetches`, `Shared.Used.delivers`).
-/

namespace XPath

open Producer

/-- One use of a shared sequence and what it came to. Readers are numbered in the order in which they
are created. -/
inductive Use where
  | reader
  | next (reader : Nat) (outcome : Attempt (Option Value))
  | fetch (index : Nat) (outcome : Attempt (Option Value))
  | items (outcome : Attempt (List Value))

namespace Use

/-- What a reader is given; a suspension is nothing. -/
def answer? (k : Nat) : Use → Option (Attempt (Option Value))
  | next j (.ready o) => if j = k then some (.ready o) else none
  | next j (.failed e) => if j = k then some (.failed e) else none
  | _ => none

/-- All that a reader is given. -/
def answers (k : Nat) (xs : List Use) : List (Attempt (Option Value)) := xs.filterMap (answer? k)

theorem answers_append (k : Nat) (xs ys : List Use) :
    answers k (xs ++ ys) = answers k xs ++ answers k ys := List.filterMap_append

theorem answers_ready (k : Nat) (v : Option Value) :
    answers k [next k (.ready v)] = [.ready v] := by simp [answers, answer?]

theorem answers_failed (k : Nat) (e : Error) :
    answers k [next k (.failed e)] = [.failed e] := by simp [answers, answer?]

theorem answers_pending (k : Nat) (topic : Option Topic) :
    answers k [next k (.pending topic)] = [] := rfl

theorem answers_other {j k : Nat} (hjk : j ≠ k) (o : Attempt (Option Value)) :
    answers k [next j o] = [] := by cases o <;> simp [answers, answer?, hjk]

end Use

/-- A shared sequence is used, each time with fuel enough, and suspensions are waited for. -/
inductive Shared.Used (h : Host) (shared : Shared) (s : Session) :
    List Use → List Sequence → Session → Prop
  | start : Used h shared s [] [] s
  | wait {l : List Use} {qs : List Sequence} {t : Session} (topic : Option Topic) :
      Used h shared s l qs t → Used h shared s l qs (t.await topic)
  | reader {l : List Use} {qs : List Sequence} {t : Session} :
      Used h shared s l qs t →
      Used h shared s (l ++ [.reader]) (qs ++ [.ofProducer (.reader shared)]) t
  | next {l : List Use} {qs : List Sequence} {t t' : Session} {k : Nat} {q q' : Sequence}
      {o : Attempt (Option Value)} (fuel : Nat) :
      Used h shared s l qs t → qs[k]? = some q → q.next h fuel t = (o, q', t') → o ≠ .exhausted →
      Used h shared s (l ++ [.next k o]) (qs.set k q') t'
  | fetch {l : List Use} {qs : List Sequence} {t t' : Session} {i : Nat}
      {o : Attempt (Option Value)} (fuel : Nat) :
      Used h shared s l qs t → shared.fetch h fuel i t = (o, t') → o ≠ .exhausted →
      Used h shared s (l ++ [.fetch i o]) qs t'
  | items {l : List Use} {qs : List Sequence} {t t' : Session} {o : Attempt (List Value)}
      (fuel : Nat) :
      Used h shared s l qs t → shared.items h fuel t = (o, t') → o ≠ .exhausted →
      Used h shared s (l ++ [.items o]) qs t'

/-! ## What a supply allows -/

namespace Supply

variable {x y : Supply}

/-- All items, once they are known. -/
def all? (x : Supply) : Option (Attempt (List Value)) :=
  match x.ending with
  | some none => some (.ready x.items)
  | some (some e) => some (.failed e)
  | none => none

/-- The outcome is a suspension or what is known. -/
def Allows (x : Supply) : Use → Prop
  | .fetch i o => (∃ topic, o = .pending topic) ∨ x.at? i = some o
  | .items o => (∃ topic, o = .pending topic) ∨ x.all? = some o
  | .reader | .next _ _ => True

/-- The items in order, from the first one on; after the last one the end, or the error and then the
end. -/
def Gives (x : Supply) (os : List (Attempt (Option Value))) : Prop :=
  os <+: x.items.map .item ∨
    (∃ n, x.ending = some none ∧ os = x.items.map .item ++ List.replicate n .done) ∨
    ∃ e n, x.ending = some (some e) ∧ os = x.items.map .item ++ .failed e :: List.replicate n .done

theorem Gives.cons {v : Value} {vs : List Value} {e : Option (Option Error)}
    {os : List (Attempt (Option Value))} (hx : Gives ⟨vs, e⟩ os) :
    Gives ⟨v :: vs, e⟩ (.item v :: os) := by
  rcases hx with hx | ⟨n, he, rfl⟩ | ⟨err, n, he, rfl⟩
  · exact .inl ((List.prefix_cons_inj _).2 hx)
  · exact .inr (.inl ⟨n, he, rfl⟩)
  · exact .inr (.inr ⟨err, n, he, rfl⟩)

theorem Grows.all? {o : Attempt (List Value)} (hg : x.Grows y) (ho : x.all? = some o) :
    y.all? = some o := by
  have he : x.ending ≠ none := by
    intro he
    rw [Supply.all?, he] at ho
    cases ho
  rwa [hg.2 he]

theorem Grows.allows {use : Use} (hg : x.Grows y) (hx : x.Allows use) : y.Allows use := by
  cases use with
  | fetch i o => exact hx.imp_right hg.at?
  | items o => exact hx.imp_right hg.all?
  | reader | next => trivial

end Supply

/-! ## One reader -/

/-- What a reader of a cell goes on with after an item has been looked for. -/
def readOn (c n : Nat) : Option Value → Producer
  | some v => .emit v (.call (.read c (n + 1)))
  | none => .done

/-- A reader that has given some items, perhaps in the middle of looking for the next one. -/
inductive Reading (c n : Nat) : Producer → Prop
  | call : Reading c n (.call (.read c n))
  | fetch : Reading c n (.fetch (.cell c) n (readOn c n))

/-- What a turn of a reader comes to when this much is known. -/
inductive Read (c n : Nat) (x : Supply) (t : Session) : Turn → Prop
  | item {v : Value} :
      x.at? n = some (.item v) → Read c n x t ⟨.ready (some v), .call (.read c (n + 1)), t⟩
  | finish : x.at? n = some .done → Read c n x t (.finished t)
  | failed {e : Error} : x.at? n = some (.failed e) → Read c n x t (.failed e t)
  | pending {topic : Option Topic} :
      Read c n x t ⟨.pending topic, .fetch (.cell c) n (readOn c n), t⟩

variable {h : Host} {c i n : Nat} {s t t' u : Session} {x y z : Supply} {p : Producer}
  {o : Attempt (Option Value)} {os turns : List (Attempt (Option Value))} {q q' : Sequence}

theorem Fetched.read {turn : Turn} (hf : Fetched h c n (readOn c n) x t turn)
    (ho : turn.outcome ≠ .exhausted) : Read c n x t turn := by
  cases hf with
  | @found o fuel hx =>
    cases fuel with
    | zero => exact absurd rfl ho
    | succ fuel =>
      cases o with
      | some v => exact .item hx
      | none => exact .finish hx
  | failed hx => exact .failed hx
  | pending => exact .pending

theorem Advances.read {fuel : Nat} (hs : s.Stores c .start) (ha : Advances h c s turns t)
    (hp : Reading c n p) (ho : (next h fuel p t).outcome ≠ .exhausted) :
    ∃ turns' t', Advances h c t turns' t' ∧
      Read c n (.ofTurns (turns ++ turns')) t' (next h fuel p t) := by
  cases hp with
  | call =>
    cases fuel with
    | zero => exact absurd rfl ho
    | succ fuel =>
      have ho' : (next h fuel (.fetch (.cell c) n (readOn c n)) t).outcome ≠ .exhausted := ho
      obtain ⟨turns', t', ha', hf⟩ := ha.fetch hs ho'
      exact ⟨turns', t', ha', hf.read ho⟩
  | fetch =>
    obtain ⟨turns', t', ha', hf⟩ := ha.fetch hs ho
    exact ⟨turns', t', ha', hf.read ho⟩

/-- Where a reader is that has been given these answers. -/
inductive ReaderAt (c : Nat) (x : Supply) : List (Attempt (Option Value)) → Sequence → Prop
  | underway {n : Nat} {p : Producer} :
      n ≤ x.items.length → Reading c n p →
      ReaderAt c x ((x.items.take n).map .item) ⟨[], some p⟩
  | ended (n : Nat) :
      x.ending = some none →
      ReaderAt c x (x.items.map .item ++ List.replicate (n + 1) .done) ⟨[], none⟩
  | failed {e : Error} (n : Nat) :
      x.ending = some (some e) →
      ReaderAt c x (x.items.map .item ++ .failed e :: List.replicate n .done) ⟨[], none⟩

namespace ReaderAt

theorem gives (hr : ReaderAt c x os q) : x.Gives os := by
  cases hr with
  | @underway n _ hn _ => exact .inl ((List.take_prefix n x.items).map _)
  | ended n he => exact .inr (.inl ⟨n + 1, he, rfl⟩)
  | failed n he => exact .inr (.inr ⟨_, n, he, rfl⟩)

theorem grows (hg : x.Grows y) (hr : ReaderAt c x os q) : ReaderAt c y os q := by
  by_cases he : x.ending = none
  · cases hr with
    | @underway n p hn hp =>
      obtain ⟨more, hmore⟩ := hg.1
      have htake : x.items.take n = y.items.take n := by
        rw [← hmore, List.take_append_of_le_length hn]
      rw [htake]
      refine .underway (Nat.le_trans hn ?_) hp
      rw [← hmore, List.length_append]
      exact Nat.le_add_right ..
    | ended _ he' | failed _ he' =>
      rw [he] at he'
      cases he'
  · rwa [hg.2 he]

end ReaderAt

/-- Turns only add to what is known. -/
theorem Advances.grows {turns' : List (Attempt (Option Value))} (hs : s.Stores c .start)
    (ha : Advances h c s turns t) (ha' : Advances h c t turns' u) :
    (Supply.ofTurns turns).Grows (.ofTurns (turns ++ turns')) := by
  induction ha' with
  | start =>
    rw [List.append_nil]
    exact .refl _
  | wait _ _ ih => exact ih
  | @turn os u items p turn fuel ha' hc hn ho ih =>
    have hending := (((ha.trans ha').stores hs).ending hc).1
    rw [← List.append_assoc, Supply.ofTurns_concat]
    exact ih.trans (Supply.grows_add hending _)

/-- A reader that has been asked for its next item. -/
theorem ReaderAt.read {turn : Turn} {k : Nat} (hn : n ≤ x.items.length) (hr : Read c n x t turn)
    (hq : (match turn.outcome with
      | .ready none | .failed _ => (turn.outcome, ⟨[], none⟩, turn.session)
      | _ => (turn.outcome, ⟨[], some turn.rest⟩, turn.session)) = (o, q', t')) :
    t' = t ∧
      ReaderAt c x ((x.items.take n).map .item ++ Use.answers k [.next k o]) q' := by
  cases hr with
  | item hv =>
    cases hq
    rw [Supply.at?_eq_some_item] at hv
    have hlt : n < x.items.length := (List.getElem?_eq_some_iff.1 hv).choose
    have hnext : ReaderAt c x ((x.items.take (n + 1)).map .item) _ := .underway hlt .call
    refine ⟨rfl, ?_⟩
    rw [List.take_add_one, hv, List.map_append] at hnext
    rw [Use.answers_ready]
    exact hnext
  | finish hv =>
    cases hq
    rw [Supply.at?_eq_some_done] at hv
    refine ⟨rfl, ?_⟩
    change ReaderAt c x (_ ++ Use.answers k [.next k (.ready none)]) _
    rw [List.take_of_length_le hv.1, Use.answers_ready]
    exact .ended 0 hv.2
  | failed hv =>
    cases hq
    rw [Supply.at?_eq_some_failed] at hv
    refine ⟨rfl, ?_⟩
    change ReaderAt c x (_ ++ Use.answers k [.next k (.failed _)]) _
    rw [List.take_of_length_le hv.1, Use.answers_failed]
    exact .failed 0 hv.2
  | pending =>
    cases hq
    refine ⟨rfl, ?_⟩
    rw [Use.answers_pending, List.append_nil]
    exact .underway hn .fetch

/-- A reader is asked for its next item. -/
theorem ReaderAt.next {fuel : Nat} {k : Nat} (hs : s.Stores c .start)
    (ha : Advances h c s turns t) (hr : ReaderAt c (.ofTurns turns) os q)
    (hq : q.next h fuel t = (o, q', t')) (ho : o ≠ .exhausted) :
    ∃ turns', Advances h c t turns' t' ∧
      ReaderAt c (.ofTurns (turns ++ turns')) (os ++ Use.answers k [.next k o]) q' := by
  cases hr with
  | @underway n p hn hp =>
    change Sequence.pull h fuel ⟨[], some p⟩ t = _ at hq
    simp only [Sequence.pull] at hq
    have hne : (Producer.next h fuel p t).outcome ≠ .exhausted := by
      intro he
      rw [he] at hq
      cases hq
      exact ho rfl
    obtain ⟨turns', u, ha', hread⟩ := ha.read hs hp hne
    obtain ⟨more, hmore⟩ := (ha.grows hs ha').1
    have htake : (Supply.ofTurns turns).items.take n =
        (Supply.ofTurns (turns ++ turns')).items.take n := by
      rw [← hmore, List.take_append_of_le_length hn]
    have hn' : n ≤ (Supply.ofTurns (turns ++ turns')).items.length := by
      rw [← hmore, List.length_append]
      omega
    rw [htake]
    obtain ⟨rfl, hr⟩ := ReaderAt.read hn' hread hq
    exact ⟨turns', ha', hr⟩
  | ended n he =>
    cases hq
    refine ⟨[], .start, ?_⟩
    have hnext := ReaderAt.ended (c := c) (n + 1) he
    rw [List.replicate_succ', ← List.append_assoc] at hnext
    rwa [List.append_nil, Use.answers_ready]
  | failed n he =>
    cases hq
    refine ⟨[], .start, ?_⟩
    have hnext := ReaderAt.failed (c := c) (n + 1) he
    rw [List.replicate_succ', ← List.cons_append, ← List.append_assoc] at hnext
    rwa [List.append_nil, Use.answers_ready]

/-! ## The other uses -/

/-- An item is fetched. -/
theorem Advances.fetched {fuel : Nat} (hs : s.Stores c .start) (ha : Advances h c s turns t)
    (hf : (Shared.cell c).fetch h fuel i t = (o, t')) (ho : o ≠ .exhausted) :
    ∃ turns', Advances h c t turns' t' ∧
      (Supply.ofTurns (turns ++ turns')).Allows (.fetch i o) := by
  obtain ⟨rfl, rfl⟩ := Prod.mk.inj hf
  obtain ⟨turns', u, ha', hfetch⟩ := ha.fetch hs ho
  refine ⟨turns', ?_⟩
  generalize Producer.next h fuel _ t = turn at hfetch ho
  cases hfetch with
  | @found w fuel hx =>
    cases fuel with
    | zero => exact absurd rfl ho
    | succ fuel =>
      cases w with
      | some v => exact ⟨ha', .inr hx⟩
      | none => exact ⟨ha', .inr hx⟩
  | failed hx => exact ⟨ha', .inr hx⟩
  | pending => exact ⟨ha', .inl ⟨_, rfl⟩⟩

/-- All items are taken, by a reader that begins at the first one. -/
theorem Advances.collected {fuel : Nat} {drawn : List Value} {o : Attempt (List Value)}
    (hs : s.Stores c .start) (ha : Advances h c s turns t) (hp : Reading c n p)
    (hdrawn : drawn.reverse = (Supply.ofTurns turns).items.take n)
    (hn : n ≤ (Supply.ofTurns turns).items.length)
    (hc : collect h fuel drawn p t = (o, t')) (ho : o ≠ .exhausted) :
    ∃ turns', Advances h c t turns' t' ∧
      (Supply.ofTurns (turns ++ turns')).Allows (.items o) := by
  induction fuel generalizing turns t p n drawn with
  | zero =>
    cases hc
    exact absurd rfl ho
  | succ fuel ih =>
    rw [collect] at hc
    have hne : (Producer.next h fuel p t).outcome ≠ .exhausted := by
      intro he
      simp only [he] at hc
      cases hc
      exact ho rfl
    obtain ⟨turns', u, ha', hread⟩ := ha.read hs hp hne
    obtain ⟨more, hmore⟩ := (ha.grows hs ha').1
    have hdrawn' : drawn.reverse = (Supply.ofTurns (turns ++ turns')).items.take n := by
      rw [hdrawn, ← hmore, List.take_append_of_le_length hn]
    generalize Producer.next h fuel p t = turn at hc hread
    cases hread with
    | @item v hv =>
      rw [Supply.at?_eq_some_item] at hv
      have hlt := (List.getElem?_eq_some_iff.1 hv).choose
      have hdrawn'' : (v :: drawn).reverse =
          (Supply.ofTurns (turns ++ turns')).items.take (n + 1) := by
        rw [List.reverse_cons, hdrawn', List.take_add_one, hv]
        rfl
      obtain ⟨turns'', ha'', hall⟩ := ih (ha.trans ha') .call hdrawn'' hlt hc
      exact ⟨turns' ++ turns'', ha'.trans ha'', by rwa [← List.append_assoc]⟩
    | finish hv =>
      cases hc
      rw [Supply.at?_eq_some_done] at hv
      refine ⟨turns', ha', .inr ?_⟩
      rw [Supply.all?, hv.2, hdrawn', List.take_of_length_le hv.1]
    | failed hv =>
      cases hc
      rw [Supply.at?_eq_some_failed] at hv
      refine ⟨turns', ha', .inr ?_⟩
      rw [Supply.all?, hv.2]
    | pending =>
      cases hc
      exact ⟨turns', ha', .inl ⟨_, rfl⟩⟩

/-! ## All uses together -/

/-- Every answer so far is what the turns of the source made known. -/
structure Alike (h : Host) (c : Nat) (s : Session) (turns : List (Attempt (Option Value)))
    (xs : List Use) (qs : List Sequence) (t : Session) : Prop where
  advances : Advances h c s turns t
  allows : ∀ use ∈ xs, (Supply.ofTurns turns).Allows use
  readers : ∀ k q, qs[k]? = some q → ReaderAt c (.ofTurns turns) (Use.answers k xs) q
  later : ∀ k, qs.length ≤ k → Use.answers k xs = []

variable {xs : List Use} {qs : List Sequence}

/-- A use that is none of a reader. -/
theorem Alike.use {use : Use} {turns' : List (Attempt (Option Value))} (hs : s.Stores c .start)
    (hx : Alike h c s turns xs qs t) (ha : Advances h c t turns' u)
    (hone : (Supply.ofTurns (turns ++ turns')).Allows use) (hnone : ∀ k, Use.answers k [use] = []) :
    Alike h c s (turns ++ turns') (xs ++ [use]) qs u where
  advances := hx.advances.trans ha
  allows x hmem := by
    rcases List.mem_append.1 hmem with hmem | hmem
    · exact (hx.advances.grows hs ha).allows (hx.allows x hmem)
    · rw [List.mem_singleton.1 hmem]
      exact hone
  readers k q hq := by
    rw [Use.answers_append, hnone, List.append_nil]
    exact (hx.readers k q hq).grows (hx.advances.grows hs ha)
  later k hk := by rw [Use.answers_append, hnone, List.append_nil, hx.later k hk]

theorem Alike.reader (hs : s.Stores c .start) (hx : Alike h c s turns xs qs t) :
    Alike h c s turns (xs ++ [.reader]) (qs ++ [.ofProducer (.reader (.cell c))]) t := by
  have huse : Alike h c s (turns ++ []) (xs ++ [.reader]) qs t :=
    hx.use hs .start trivial fun _ => rfl
  rw [List.append_nil] at huse
  refine ⟨huse.advances, huse.allows, fun k q hq => ?_, fun k hk => ?_⟩
  · rcases Nat.lt_trichotomy k qs.length with hk | rfl | hk
    · rw [List.getElem?_append_left hk] at hq
      exact huse.readers k q hq
    · rw [List.getElem?_concat_length] at hq
      cases hq
      rw [huse.later _ (Nat.le_refl _)]
      exact .underway (n := 0) (Nat.zero_le _) .call
    · rw [List.getElem?_eq_none (by simp; omega)] at hq
      cases hq
  · rw [List.length_append, List.length_singleton] at hk
    exact huse.later k (by omega)

theorem Alike.next {fuel k : Nat} (hs : s.Stores c .start) (hx : Alike h c s turns xs qs t)
    (hk : qs[k]? = some q) (hq : q.next h fuel t = (o, q', t')) (ho : o ≠ .exhausted) :
    ∃ turns', Alike h c s (turns ++ turns') (xs ++ [.next k o]) (qs.set k q') t' := by
  obtain ⟨turns', ha, hr⟩ := (hx.readers k q hk).next (k := k) hs hx.advances hq ho
  have hgrows := hx.advances.grows hs ha
  have hlt : k < qs.length := (List.getElem?_eq_some_iff.1 hk).choose
  refine ⟨turns', hx.advances.trans ha, fun use hmem => ?_, fun j r hj => ?_, fun j hj => ?_⟩
  · rcases List.mem_append.1 hmem with hmem | hmem
    · exact hgrows.allows (hx.allows use hmem)
    · rw [List.mem_singleton.1 hmem]
      trivial
  · rw [Use.answers_append]
    by_cases hjk : k = j
    · subst hjk
      rw [List.getElem?_set_self hlt] at hj
      cases hj
      exact hr
    · rw [List.getElem?_set_ne hjk] at hj
      rw [Use.answers_other hjk, List.append_nil]
      exact (hx.readers j r hj).grows hgrows
  · rw [List.length_set] at hj
    rw [Use.answers_append, hx.later j hj, Use.answers_other (by omega), List.append_nil]

theorem Shared.Used.alike (hs : s.Stores c .start)
    (hrun : Shared.Used h (.cell c) s xs qs t) : ∃ turns, XPath.Alike h c s turns xs qs t := by
  induction hrun with
  | start => exact ⟨[], .start, by simp, by simp, fun _ _ => rfl⟩
  | wait topic _ ih =>
    obtain ⟨turns, hx⟩ := ih
    exact ⟨turns, .wait topic hx.advances, hx.allows, hx.readers, hx.later⟩
  | reader _ ih =>
    obtain ⟨turns, hx⟩ := ih
    exact ⟨turns, hx.reader hs⟩
  | next fuel _ hk hq ho ih =>
    obtain ⟨turns, hx⟩ := ih
    obtain ⟨turns', hx'⟩ := hx.next hs hk hq ho
    exact ⟨_, hx'⟩
  | fetch fuel _ hf ho ih =>
    obtain ⟨turns, hx⟩ := ih
    obtain ⟨turns', ha, hone⟩ := hx.advances.fetched hs hf ho
    exact ⟨_, hx.use hs ha hone fun _ => rfl⟩
  | items fuel _ hc ho ih =>
    obtain ⟨turns, hx⟩ := ih
    obtain ⟨turns', ha, hone⟩ := hx.advances.collected (n := 0) hs .call rfl (Nat.zero_le _) hc ho
    exact ⟨_, hx.use hs ha hone fun _ => rfl⟩

/-! ## Getting what is supplied -/

section

variable {k : Option Value → Producer} (hk : ∀ w u, ∃ d, d.answer = .ready w ∧ Draws h (k w) u d u)

include hk

/-- What is known is fetched. -/
theorem Session.Stores.fetches (hx : t.Stores c x) (ho : x.at? i = some o) :
    ∃ d u, d.answer = o ∧ Draws h (.fetch (.cell c) i k) t d u := by
  cases hx.shows i with
  | @item v hv hl =>
    cases hv.symm.trans ho
    obtain ⟨d, hd, hdraw⟩ := hk (some v) t
    exact ⟨d, t, hd, .fetch_item hl hdraw⟩
  | finish hv hl =>
    cases hv.symm.trans ho
    obtain ⟨d, hd, hdraw⟩ := hk none t
    exact ⟨d, t, hd, .fetch_finish hl hdraw⟩
  | failed hv hl =>
    cases hv.symm.trans ho
    exact ⟨_, t, rfl, .fetch_failed hl⟩
  | unread hi hcell =>
    rw [Supply.at?, hi, (hx.ending hcell).1] at ho
    cases ho

theorem Session.Stores.fetches_item (hx : t.Stores c x) (hi : i < x.items.length)
    (ho : (y.after x.items).at? i = some o) :
    ∃ d u, d.answer = o ∧ Draws h (.fetch (.cell c) i k) t d u := by
  have hlater : (y.after x.items).at? i = some (.item x.items[i]) := by
    rw [Supply.at?_eq_some_item, Supply.after, List.getElem?_append_left hi,
      List.getElem?_eq_getElem hi]
  cases hlater.symm.trans ho
  apply hx.fetches hk
  rw [Supply.at?_eq_some_item, List.getElem?_eq_getElem hi]

/-- What is supplied from now on can be fetched now. -/
theorem Supplies.fetches (hx : t.Stores c x) (he : x.ending = none) (hy : Supplies h c t y)
    (ho : (y.after x.items).at? i = some o) :
    ∃ d u, d.answer = o ∧ Draws h (.fetch (.cell c) i k) t d u := by
  induction hy generalizing x with
  | start =>
    have hstart : Supply.start.after x.items = x := by
      obtain ⟨items, ending⟩ := x
      cases he
      simp [Supply.after, Supply.start]
    rw [hstart] at ho
    exact hx.fetches hk ho
  | @item t t₁ items p q v y hc hd hy ih =>
    by_cases hi : i < x.items.length
    · exact hx.fetches_item hk hi ho
    · have hl := hx.unread hc (Nat.le_of_not_lt hi)
      have hstores : (Turn.settle ⟨.item v, q, t₁⟩ c).Stores c (x.add (.item v)) :=
        hx.settle hc (hd.idle (Session.idle_detach hc)) (by simp)
      have ho' : (y.after (x.items ++ [v])).at? i = some o := by
        rw [← ho, Supply.after, Supply.after, Supply.after, List.append_assoc]
      obtain ⟨d, u, hanswer, hdraw⟩ := ih hstores he ho'
      exact ⟨d, u, hanswer, .unread_item hl hd hdraw⟩
  | @finish t t₁ items p hc hd =>
    by_cases hi : i < x.items.length
    · exact hx.fetches_item hk hi ho
    · have hl := hx.unread hc (Nat.le_of_not_lt hi)
      obtain rfl : Attempt.done = o := by
        simpa [Supply.at?, Supply.after, List.getElem?_eq_none (Nat.le_of_not_lt hi)] using ho
      obtain ⟨d, hanswer, hdraw⟩ := hk none t₁
      exact ⟨d, t₁, hanswer, .unread_finish hl hd hdraw⟩
  | @failed t t₁ items p e hc hd =>
    by_cases hi : i < x.items.length
    · exact hx.fetches_item hk hi ho
    · have hl := hx.unread hc (Nat.le_of_not_lt hi)
      obtain rfl : Attempt.failed e = o := by
        simpa [Supply.at?, Supply.after, List.getElem?_eq_none (Nat.le_of_not_lt hi)] using ho
      exact ⟨.failed e, _, rfl, .unread_failed hl hd⟩

/-- After any turns, what is supplied from the beginning can be fetched. -/
theorem Advances.fetches (hs : s.Stores c .start) (ha : Advances h c s turns t)
    (hz : Supplies h c s.calm z) (ho : z.at? i = some o) :
    ∃ d u, d.answer = o ∧ Draws h (.fetch (.cell c) i k) t.calm d u := by
  have hstores := ha.stores hs
  have hx : t.calm.Stores c (.ofTurns turns) := hstores
  have hfollows := ha.follows hs
  rcases hfollows.supplies.comparable hz with ⟨⟨ys, hys⟩, hend⟩ | hgrows
  · by_cases he : (Supply.ofTurns turns).ending = none
    · rw [Follows, if_pos he] at hfollows
      have hz' : z = Supply.after (Supply.ofTurns turns).items ⟨ys, z.ending⟩ := by
        rw [Supply.after, hys]
      have hy := (hfollows ⟨ys, z.ending⟩).2 (by rwa [← hz'])
      exact hy.fetches hk hx he (by rwa [← hz'])
    · rw [hend he] at ho
      exact hx.fetches hk ho
  · exact hx.fetches hk (hgrows.at? ho)

end

/-- What is fetched alone. -/
def found : Option Value → Producer
  | some v => .singleton v
  | none => .done

theorem fetch_eq (shared : Shared) (fuel : Nat) (t : Session) :
    shared.fetch h fuel i t = ((Producer.next h fuel (.fetch shared i found) t).outcome,
      (Producer.next h fuel (.fetch shared i found) t).session) := by
  have hfound : found = fun
      | some v => .singleton v
      | none => .done := by
    funext o
    cases o <;> rfl
  exact hfound ▸ rfl

/-- Fetching is suspended as a whole. -/
theorem Advances.fetch_pending {fuel : Nat} {topic : Option Topic} (hs : s.Stores c .start)
    (ha : Advances h c s turns t)
    (hw : (Producer.next h fuel (.fetch (.cell c) i found) t).outcome = .pending topic) :
    (Producer.next h fuel (.fetch (.cell c) i found) t).rest = .fetch (.cell c) i found := by
  obtain ⟨_, _, _, hf⟩ := ha.fetch hs (by rw [hw]; nofun)
  generalize Producer.next h fuel _ t = turn at hf hw
  cases hf with
  | @found o fuel =>
    cases fuel with
    | zero => cases hw
    | succ fuel => cases o <;> cases hw
  | failed => cases hw
  | pending => rfl

/-- What is supplied is fetched in the end, whatever has been done before, if suspensions are waited
for. -/
theorem Shared.Used.fetches (hs : s.Stores c .start) (hrun : Shared.Used h (.cell c) s xs qs t)
    (hz : Supplies h c s.calm z) (ho : z.at? i = some o) :
    ∃ ys t', (∀ use ∈ ys, ∃ topic, use = .fetch i (.pending topic)) ∧
      Shared.Used h (.cell c) s (xs ++ ys ++ [.fetch i o]) qs t' := by
  obtain ⟨turns, hx⟩ := hrun.alike hs
  have hfound : ∀ w u, ∃ d, d.answer = .ready w ∧ Draws h (found w) u d u := by
    intro w u
    cases w with
    | some v => exact ⟨.item v .done, rfl, .emit⟩
    | none => exact ⟨.finish, rfl, .done⟩
  obtain ⟨d, u, rfl, hd⟩ := hx.advances.fetches hfound hs hz ho
  obtain ⟨w, -, hsettles⟩ := hd.reaches t rfl
  clear hx hd ho
  generalize hp : Producer.fetch (.cell c) i found = p at hsettles
  induction hsettles generalizing xs with
  | @answers fuel p t d ha =>
    subst hp
    refine ⟨[], (Producer.next h fuel (.fetch (.cell c) i found) t).session,
      fun _ hmem => absurd hmem List.not_mem_nil, ?_⟩
    rw [List.append_nil]
    refine .fetch fuel hrun ?_ (by cases d <;> nofun)
    rw [fetch_eq, outcome_answer ha]
  | @waits fuel p t topic d w hw hrest ih =>
    subst hp
    obtain ⟨turns, hx⟩ := hrun.alike hs
    have hrun' := Shared.Used.wait topic
      (Shared.Used.fetch fuel hrun (fetch_eq (.cell c) fuel t) (by rw [hw]; nofun))
    obtain ⟨ys, t', hys, hused⟩ := ih hrun' (hx.advances.fetch_pending hs hw).symm
    refine ⟨.fetch i (.pending topic) :: ys, t', ?_, ?_⟩
    · intro use hmem
      rcases List.mem_cons.1 hmem with rfl | hmem
      · exact ⟨topic, rfl⟩
      · exact hys use hmem
    · rw [hw] at hused
      simpa using hused

/-- A producer that settles is asked for its item by its reader. -/
theorem Shared.Used.settles {k : Nat} {d : Draw} (hrun : Shared.Used h (.cell c) s xs qs t)
    (hk : qs[k]? = some ⟨[], some p⟩) (hp : Settles h p t d u) :
    ∃ ys q', (∀ use ∈ ys, ∃ topic, use = .next k (.pending topic)) ∧
      Shared.Used h (.cell c) s (xs ++ ys ++ [.next k d.answer]) (qs.set k q') u := by
  induction hp generalizing xs qs with
  | @answers fuel p t d ha =>
    refine ⟨[], ⟨[], d.rest?⟩, fun _ hmem => absurd hmem List.not_mem_nil, ?_⟩
    rw [List.append_nil]
    exact .next fuel hrun hk (next_answer ha) (by cases d <;> nofun)
  | @waits fuel p t topic d u hw _ ih =>
    have hlt : k < qs.length := (List.getElem?_eq_some_iff.1 hk).choose
    have hrun' := Shared.Used.wait topic (Shared.Used.next fuel hrun hk (next_wait hw) nofun)
    obtain ⟨ys, q', hys, hused⟩ := ih hrun' (by rw [List.getElem?_set_self hlt])
    refine ⟨.next k (.pending topic) :: ys, q', ?_, ?_⟩
    · intro use hmem
      rcases List.mem_cons.1 hmem with rfl | hmem
      · exact ⟨topic, rfl⟩
      · exact hys use hmem
    · rw [List.set_set] at hused
      simpa using hused

/-- What is supplied is given to every reader in its turn, if suspensions are waited for. -/
theorem Shared.Used.delivers {k : Nat} (hs : s.Stores c .start)
    (hrun : Shared.Used h (.cell c) s xs qs t) (hk : qs[k]? = some q) (hz : Supplies h c s.calm z)
    (hlen : (Use.answers k xs).length ≤ z.items.length)
    (ho : z.at? (Use.answers k xs).length = some o) :
    ∃ ys q' t', (∀ use ∈ ys, ∃ topic, use = .next k (.pending topic)) ∧
      Shared.Used h (.cell c) s (xs ++ ys ++ [.next k o]) (qs.set k q') t' := by
  obtain ⟨turns, hx⟩ := hrun.alike hs
  have hknown : (Supply.ofTurns turns).ending ≠ none →
      z.items.length ≤ (Supply.ofTurns turns).items.length := by
    intro he
    rcases (hx.advances.follows hs).supplies.comparable hz with hg | hg
    · rw [hg.2 he]
    · exact hg.1.length_le
  have hr := hx.readers k q hk
  generalize hos : Use.answers k xs = os at hr hlen ho
  cases hr with
  | @underway n p hn hp =>
    have hread : ∀ w u, ∃ d, d.answer = .ready w ∧ Draws h (readOn c n w) u d u := by
      intro w u
      cases w with
      | some v => exact ⟨.item v _, rfl, .emit⟩
      | none => exact ⟨.finish, rfl, .done⟩
    rw [List.length_map, List.length_take, Nat.min_eq_left hn] at ho
    obtain ⟨d, u, rfl, hd⟩ := hx.advances.fetches hread hs hz ho
    have hdraws : Draws h p t.calm d u := by
      cases hp with
      | call => exact .call hd
      | fetch => exact hd
    obtain ⟨w, -, hsettles⟩ := hdraws.reaches t rfl
    obtain ⟨ys, q', hys, hused⟩ := hrun.settles hk hsettles
    exact ⟨ys, q', w, hys, hused⟩
  | ended n he | failed n he =>
    have hle := hknown (by rw [he]; nofun)
    simp only [List.length_append, List.length_map, List.length_cons, List.length_replicate] at hlen
    omega

/-! ## The promise of sharing -/

theorem Session.stores_allocate (s : Session) (p : Producer) :
    (s.allocate p).2.Stores s.cells.size .start :=
  ⟨some p, by simp [Session.allocate, Supply.start, Supply.error?], by simp [Supply.start]⟩

/-- However a shared sequence is used, its source is only ever advanced turn by turn, none of them
after the end or an error. What the turns made known is what the source supplies, every answer of the
sequence is part of it, and every reader is given it from the first item on. Whatever is supplied can
still be had, by an index and by every reader that has got so far. -/
theorem Shared.readers_alike {p : Producer}
    (hrun : Shared.Used h (s.allocate p).1 (s.allocate p).2 xs qs t) :
    (∃ turns, Advances h s.cells.size (s.allocate p).2 turns t ∧
      (∀ ys o zs, turns = ys ++ o :: zs → (o = .done ∨ ∃ e, o = .failed e) → zs = []) ∧
      Supplies h s.cells.size (s.allocate p).2.calm (.ofTurns turns) ∧
      (∀ use ∈ xs, (Supply.ofTurns turns).Allows use) ∧
      ∀ k < qs.length, (Supply.ofTurns turns).Gives (Use.answers k xs)) ∧
    ∀ z, Supplies h s.cells.size (s.allocate p).2.calm z →
      (∀ i o, z.at? i = some o →
        ∃ ys t', (∀ use ∈ ys, ∃ topic, use = .fetch i (.pending topic)) ∧
          Shared.Used h (s.allocate p).1 (s.allocate p).2 (xs ++ ys ++ [.fetch i o]) qs t') ∧
      ∀ k o, k < qs.length → (Use.answers k xs).length ≤ z.items.length →
        z.at? (Use.answers k xs).length = some o →
        ∃ ys q' t', (∀ use ∈ ys, ∃ topic, use = .next k (.pending topic)) ∧
          Shared.Used h (s.allocate p).1 (s.allocate p).2 (xs ++ ys ++ [.next k o]) (qs.set k q')
            t' := by
  have hs := s.stores_allocate p
  constructor
  · obtain ⟨turns, hx⟩ := hrun.alike hs
    refine ⟨turns, hx.advances, fun ys o zs => hx.advances.last hs, (hx.advances.follows hs).supplies,
      hx.allows, fun k hk => ?_⟩
    exact (hx.readers k qs[k] (List.getElem?_eq_getElem hk)).gives
  · intro z hz
    constructor
    · intro i o ho
      exact hrun.fetches hs hz ho
    · intro k o hk hlen ho
      exact hrun.delivers hs (List.getElem?_eq_getElem hk) hz hlen ho

def outage : Error := ⟨.FOER0000, "boom"⟩

/-- An item and an error, with a suspension before each of them. -/
def faltering : Producer := .pause (.emit (.integer 1) (.pause (.fail outage)))

/-- Two readers, the second of which comes late, with an item fetched and all taken in between. -/
theorem Shared.readers_alike_faltering :
    ∃ turns t, Advances .absent 0 (Session.empty.allocate faltering).2 turns t ∧
      (Supply.ofTurns turns).Gives [.item (.integer 1), .failed outage, .done] ∧
      (Supply.ofTurns turns).Gives [.item (.integer 1)] ∧
      (Supply.ofTurns turns).Allows (.fetch 1 (.pending none)) ∧
      (Supply.ofTurns turns).Allows (.items (.failed outage)) := by
  have hrun : Shared.Used .absent (Session.empty.allocate faltering).1
      (Session.empty.allocate faltering).2
      [.reader, .next 0 (.pending none), .fetch 1 (.pending none), .next 0 (.item (.integer 1)),
        .reader, .items (.failed outage), .next 1 (.item (.integer 1)), .next 0 (.failed outage),
        .next 0 .done] _ _ :=
    .next (l := [_, _, _, _, _, _, _, _]) 6 (.next (l := [_, _, _, _, _, _, _]) 6
      (.next (l := [_, _, _, _, _, _]) 6 (.items (l := [_, _, _, _, _]) 6
        (.reader (l := [_, _, _, _]) (.next (l := [_, _, _]) 6 (.fetch (l := [_, _]) 6
          (.wait none (.next (l := [_]) 6 (.reader (l := []) .start) rfl rfl nofun)) rfl nofun) rfl rfl
            nofun)) rfl nofun) rfl rfl nofun) rfl rfl nofun) rfl rfl nofun
  obtain ⟨⟨turns, ha, -, -, hallows, hgives⟩, -⟩ := Shared.readers_alike hrun
  exact ⟨turns, _, ha, hgives 0 (by decide), hgives 1 (by decide), hallows _ (by simp),
    hallows _ (by simp)⟩

end XPath
