import XPath.Proofs.Lazy.Requests

/-!
# Supplies

The source of a shared sequence is advanced turn by turn, and each turn begins where the last one left
the source (`Advances`). What the turns made known is what the cell has (`Advances.stores`) and what
would have been drawn from the source without any wait (`Advances.supplies`); there is no more than one
such supply (`Supplies.comparable`). Whoever fetches an item takes no part in this beyond the turns that
are still missing (`Advances.fetch`).
-/

namespace XPath

open Producer

/-- What is known of a source: items that it begins with and, once it has ended, the error that ended
it, if one did. -/
structure Supply where
  items : List Value
  ending : Option (Option Error)

namespace Supply

/-- Nothing is known. -/
def start : Supply := ⟨[], none⟩

/-- What is known after one more turn. -/
def add (x : Supply) : Attempt (Option Value) → Supply
  | .ready (some v) => { x with items := x.items ++ [v] }
  | .ready none => { x with ending := some none }
  | .failed e => { x with ending := some (some e) }
  | .pending _ | .exhausted => x

def ofTurns (os : List (Attempt (Option Value))) : Supply := os.foldl add start

/-- What is found at an index, as far as it is known. -/
def at? (x : Supply) (i : Nat) : Option (Attempt (Option Value)) :=
  match x.items[i]? with
  | some v => some (.item v)
  | none =>
    match x.ending with
    | some none => some .done
    | some (some e) => some (.failed e)
    | none => none

/-- More is known, unless the end is known already. -/
def Grows (x y : Supply) : Prop := x.items <+: y.items ∧ (x.ending ≠ none → y = x)

variable {x y z : Supply} {i : Nat} {o : Attempt (Option Value)}

theorem ofTurns_concat (os : List (Attempt (Option Value))) (o : Attempt (Option Value)) :
    ofTurns (os ++ [o]) = (ofTurns os).add o := by
  rw [ofTurns, List.foldl_append]
  rfl

theorem Grows.refl (x : Supply) : x.Grows x := ⟨List.prefix_refl _, fun _ => rfl⟩

theorem Grows.trans (h : x.Grows y) (h' : y.Grows z) : x.Grows z := by
  refine ⟨h.1.trans h'.1, fun hx => ?_⟩
  have hy := h.2 hx
  subst hy
  exact h'.2 hx

theorem grows_start (x : Supply) : start.Grows x := ⟨List.nil_prefix, fun h => absurd rfl h⟩

theorem at?_eq_some_item {v : Value} : x.at? i = some (.item v) ↔ x.items[i]? = some v := by
  unfold at?
  cases x.items[i]? with
  | some w => simp
  | none => rcases x.ending with _ | _ | e <;> simp

theorem at?_eq_some_done : x.at? i = some .done ↔ x.items.length ≤ i ∧ x.ending = some none := by
  rw [← List.getElem?_eq_none_iff]
  unfold at?
  cases x.items[i]? with
  | some w => simp
  | none => rcases x.ending with _ | _ | e <;> simp

theorem at?_eq_some_failed {e : Error} :
    x.at? i = some (.failed e) ↔ x.items.length ≤ i ∧ x.ending = some (some e) := by
  rw [← List.getElem?_eq_none_iff]
  unfold at?
  cases x.items[i]? with
  | some w => simp
  | none => rcases x.ending with _ | _ | e <;> simp

/-- What is known stays so. -/
theorem Grows.at? (h : x.Grows y) (hx : x.at? i = some o) : y.at? i = some o := by
  by_cases he : x.ending = none
  · unfold Supply.at? at hx
    cases hi : x.items[i]? with
    | some v =>
      rw [hi] at hx
      cases hx
      have hlt : i < x.items.length := (List.getElem?_eq_some_iff.1 hi).choose
      obtain ⟨more, hmore⟩ := h.1
      rw [at?_eq_some_item, ← hmore, List.getElem?_append_left hlt, hi]
    | none =>
      rw [hi, he] at hx
      cases hx
  · rwa [h.2 he]

theorem grows_add (hx : x.ending = none) (o : Attempt (Option Value)) : x.Grows (x.add o) := by
  refine ⟨?_, fun h => absurd hx h⟩
  unfold add
  split
  · exact List.prefix_append ..
  all_goals exact List.prefix_refl _

/-- The supply of what comes after some items. -/
def after (vs : List Value) (y : Supply) : Supply := ⟨vs ++ y.items, y.ending⟩

theorem after_inj {v w : Value} (h : x.after [v] = y.after [w]) : v = w ∧ x = y := by
  obtain ⟨xs, e⟩ := x
  obtain ⟨ys, e'⟩ := y
  simpa [after, and_assoc] using h

/-- The error that a cell keeps. -/
def error? (x : Supply) : Option Error := x.ending.join

end Supply

/-! ## Turns of a source -/

/-- What a turn of the source of a cell leaves. -/
def Turn.settle (t : Turn) (c : Nat) : Session :=
  match t.outcome with
  | .ready (some v) => t.session.keep c v t.rest
  | .ready none => t.session
  | .failed e => t.session.spoil c e
  | .pending _ | .exhausted => t.session.attach c t.rest

/-- The turns of the source of a cell, one after the other: each takes the source out of the cell and
begins where the one before it ended, with waits between them. -/
inductive Advances (h : Host) (c : Nat) (s : Session) :
    List (Attempt (Option Value)) → Session → Prop
  | start : Advances h c s [] s
  | wait {os : List (Attempt (Option Value))} {t : Session} (topic : Option Topic) :
      Advances h c s os t → Advances h c s os (t.await topic)
  | turn {l : List (Attempt (Option Value))} {t : Session} {items : Array Value} {p : Producer}
      {turn : Turn} (fuel : Nat) :
      Advances h c s l t → t.cells[c]? = some ⟨items, some p, none⟩ →
      p.next h fuel (t.detach c) = turn → turn.outcome ≠ .exhausted →
      Advances h c s (l ++ [turn.outcome]) (turn.settle c)

/-- The cell has what is known, and its source unless it has ended. -/
def Session.Stores (s : Session) (c : Nat) (x : Supply) : Prop :=
  ∃ source, s.cells[c]? = some ⟨x.items.toArray, source, x.error?⟩ ∧
    (source = none ↔ x.ending ≠ none)

variable {h : Host} {c i : Nat} {s t u : Session} {x y z : Supply} {p : Producer}
  {os : List (Attempt (Option Value))}

theorem Session.Stores.await (hs : t.Stores c x) (topic : Option Topic) :
    (t.await topic).Stores c x := hs

theorem Session.Stores.ending {items : Array Value} (hs : t.Stores c x)
    (hc : t.cells[c]? = some ⟨items, some p, none⟩) :
    x.ending = none ∧ items = x.items.toArray := by
  obtain ⟨source, hcell, hsource⟩ := hs
  obtain ⟨rfl, rfl, -⟩ := Cell.mk.inj (Option.some.inj (hc.symm.trans hcell))
  cases hx : x.ending with
  | none => exact ⟨rfl, rfl⟩
  | some e => cases hsource.2 (by rw [hx]; nofun)

theorem Session.Stores.unread {items : Array Value} (hs : t.Stores c x)
    (hc : t.cells[c]? = some ⟨items, some p, none⟩) (hi : x.items.length ≤ i) :
    t.look (.cell c) i = .unread c p := by
  obtain ⟨-, rfl⟩ := hs.ending hc
  exact Session.look_eq_unread.2 ⟨rfl, _, hc, by simpa using hi⟩

theorem Session.Stores.settle {items : Array Value} {turn : Turn} (hs : t.Stores c x)
    (hc : t.cells[c]? = some ⟨items, some p, none⟩)
    (hidle : turn.session.Idle c ⟨items, none, none⟩) (ho : turn.outcome ≠ .exhausted) :
    (turn.settle c).Stores c (x.add turn.outcome) := by
  obtain ⟨hx, rfl⟩ := hs.ending hc
  have hcell := hidle.1
  obtain ⟨items, ending⟩ := x
  cases hx
  obtain ⟨(_ | v) | topic | e | _, rest, u⟩ := turn
  · exact ⟨none, hcell, by simp [Supply.add]⟩
  · refine ⟨some rest, ?_, by simp [Supply.add]⟩
    simp [Turn.settle, Session.cells_keep, Array.getElem?_modify, hcell, Supply.add, Supply.error?]
  · refine ⟨some rest, ?_, by simp [Supply.add]⟩
    simp [Turn.settle, Session.cells_attach, Array.getElem?_modify, hcell, Supply.add,
      Supply.error?]
  · refine ⟨none, ?_, by simp [Supply.add]⟩
    simp [Turn.settle, Session.cells_spoil, Array.getElem?_modify, hcell, Supply.add,
      Supply.error?]
  · exact absurd rfl ho

namespace Advances

theorem trans {os' : List (Attempt (Option Value))} (ha : Advances h c s os t)
    (ha' : Advances h c t os' u) : Advances h c s (os ++ os') u := by
  induction ha' with
  | start => simpa using ha
  | wait topic _ ih => exact .wait topic ih
  | turn fuel _ hc hn ho ih =>
    rw [← List.append_assoc]
    exact .turn fuel ih hc hn ho

/-- The cell has what the turns made known. -/
theorem stores (hs : s.Stores c .start) (ha : Advances h c s os t) :
    t.Stores c (.ofTurns os) := by
  induction ha with
  | start => exact hs
  | wait topic _ ih => exact ih.await topic
  | @turn os t items p turn fuel _ hc hn ho ih =>
    rw [Supply.ofTurns_concat]
    have hidle := idle_next (h := h) fuel p _ (Session.idle_detach hc)
    rw [hn] at hidle
    exact ih.settle hc hidle ho

/-- There is no turn after the end or an error. -/
theorem last (hs : s.Stores c .start) (ha : Advances h c s os t)
    {ys zs : List (Attempt (Option Value))} {o : Attempt (Option Value)} (hos : os = ys ++ o :: zs)
    (ho : o = .done ∨ ∃ e, o = .failed e) : zs = [] := by
  induction ha generalizing zs with
  | start => simp at hos
  | wait _ _ ih => exact ih hos
  | @turn os t items p turn fuel ha hc _ _ ih =>
    rcases split_concat hos with ⟨-, -, rfl⟩ | ⟨zs', hos⟩
    · rfl
    · have hending := ((ha.stores hs).ending hc).1
      rw [hos, ih hos, Supply.ofTurns_concat] at hending
      rcases ho with rfl | ⟨e, rfl⟩ <;> cases hending

end Advances

/-! ## What is supplied -/

/-- What is drawn without any wait from the source of the cell, item by item. -/
inductive Supplies (h : Host) (c : Nat) : Session → Supply → Prop
  | start {s : Session} : Supplies h c s .start
  | item {s t : Session} {items : Array Value} {p q : Producer} {v : Value} {y : Supply} :
      s.cells[c]? = some ⟨items, some p, none⟩ → Draws h p (s.detach c) (.item v q) t →
      Supplies h c (t.keep c v q) y → Supplies h c s (y.after [v])
  | finish {s t : Session} {items : Array Value} {p : Producer} :
      s.cells[c]? = some ⟨items, some p, none⟩ → Draws h p (s.detach c) .finish t →
      Supplies h c s ⟨[], some none⟩
  | failed {s t : Session} {items : Array Value} {p : Producer} {e : Error} :
      s.cells[c]? = some ⟨items, some p, none⟩ → Draws h p (s.detach c) (.failed e) t →
      Supplies h c s ⟨[], some (some e)⟩

theorem Supply.Grows.after {vs : List Value} (hg : x.Grows y) :
    (x.after vs).Grows (y.after vs) :=
  ⟨(List.prefix_append_right_inj vs).2 hg.1, fun he => by rw [hg.2 he]⟩

/-- There is one supply, of which more or less may be known. -/
theorem Supplies.comparable (hx : Supplies h c s x) (hy : Supplies h c s y) :
    x.Grows y ∨ y.Grows x := by
  induction hx generalizing y with
  | start => exact .inl (Supply.grows_start y)
  | item hc hd _ ih =>
    cases hy with
    | start => exact .inr (Supply.grows_start _)
    | item hc' hd' hy =>
      cases hc.symm.trans hc'
      obtain ⟨heq, rfl⟩ := hd.unique hd'
      cases heq
      exact (ih hy).imp Supply.Grows.after Supply.Grows.after
    | finish hc' hd' | failed hc' hd' =>
      cases hc.symm.trans hc'
      cases (hd.unique hd').1
  | finish hc hd | failed hc hd =>
    cases hy with
    | start => exact .inr (Supply.grows_start _)
    | item hc' hd' | finish hc' hd' | failed hc' hd' =>
      cases hc.symm.trans hc'
      cases (hd.unique hd').1
      try exact .inl (.refl _)

/-- Where the sources of two cells come to the same, so do their supplies. -/
theorem Supplies.of_draws {items items' : Array Value} {p' : Producer}
    (hc : s.cells[c]? = some ⟨items, some p, none⟩) (hc' : t.cells[c]? = some ⟨items', some p', none⟩)
    (hd : ∀ d u, Draws h p (s.detach c) d u → Draws h p' (t.detach c) d u)
    (hs : Supplies h c s y) : Supplies h c t y := by
  cases hs with
  | start => exact .start
  | item hcell hdraw hy =>
    cases hc.symm.trans hcell
    exact .item hc' (hd _ _ hdraw) hy
  | finish hcell hdraw =>
    cases hc.symm.trans hcell
    exact .finish hc' (hd _ _ hdraw)
  | failed hcell hdraw =>
    cases hc.symm.trans hcell
    exact .failed hc' (hd _ _ hdraw)

/-- The supply after some turns is what they have left of the supply before them. -/
def Follows (h : Host) (c : Nat) (s t : Session) (x : Supply) : Prop :=
  if x.ending = none then ∀ y, Supplies h c t y ↔ Supplies h c s (y.after x.items)
  else Supplies h c s x

theorem Follows.trans (hx : x.ending = none) (hst : Follows h c s t x) (htu : Follows h c t u y) :
    Follows h c s u (y.after x.items) := by
  rw [Follows, if_pos hx] at hst
  unfold Follows at htu ⊢
  split at htu
  next hy =>
    rw [if_pos (show (y.after x.items).ending = none from hy)]
    intro z
    rw [htu, hst, Supply.after, Supply.after, Supply.after, Supply.after, List.append_assoc]
  next hy =>
    rw [if_neg (show ¬(y.after x.items).ending = none from hy)]
    exact (hst y).1 htu

theorem Follows.supplies (hst : Follows h c s t x) : Supplies h c s x := by
  unfold Follows at hst
  split at hst
  next hx =>
    have hall := (hst .start).1 .start
    obtain ⟨items, ending⟩ := x
    cases hx
    simpa [Supply.after, Supply.start] using hall
  next => exact hst

theorem Supplies.turn {items : Array Value} {turn : Turn} {fuel : Nat}
    (hc : t.cells[c]? = some ⟨items, some p, none⟩) (hn : p.next h fuel (t.detach c) = turn)
    (ho : turn.outcome ≠ .exhausted) :
    Follows h c t.calm (turn.settle c).calm (Supply.start.add turn.outcome) := by
  have hs := sound_next (h := h) fuel p (t.detach c)
  have hidle := idle_next (h := h) fuel p _ (Session.idle_detach hc)
  have hpending : ∀ topic d w, Draws h p (t.detach c).calm d w →
      (p.next h fuel (t.detach c)).outcome = .pending topic →
      Draws h (p.next h fuel (t.detach c)).rest (p.next h fuel (t.detach c)).session.calm d w :=
    fun _ _ _ => Draws.of_pending
  rw [hn] at hs hidle hpending
  obtain ⟨(_ | v) | topic | e | _, rest, u⟩ := turn
  · exact Supplies.finish hc hs
  · intro y
    constructor
    · intro hy
      exact .item hc hs hy
    · intro hy
      have hy : Supplies h c t.calm (y.after [v]) := hy
      generalize hall : y.after [v] = z at hy
      cases hy with
      | item hc' hd hy =>
        cases hc.symm.trans hc'
        obtain ⟨heq, rfl⟩ := hs.unique hd
        cases heq
        obtain ⟨-, rfl⟩ := Supply.after_inj hall
        exact hy
      | start | finish | failed => cases hall
  · have hcell : (u.attach c rest).cells[c]? = some ⟨items, some rest, none⟩ := by
      simp [Session.cells_attach, Array.getElem?_modify, hidle.1]
    have hback : ((u.attach c rest).detach c).calm = u.calm := by
      rw [Session.detach_attach hidle]
    intro y
    constructor
    · refine Supplies.of_draws hcell hc fun d w hd => hs d w ?_
      rwa [← hback]
    · refine Supplies.of_draws hc hcell fun d w hd => ?_
      have := hpending topic d w hd rfl
      rwa [← hback] at this
  · exact Supplies.failed hc hs
  · exact absurd rfl ho

theorem Supply.add_eq_after (hx : x.ending = none) (o : Attempt (Option Value)) :
    x.add o = (Supply.start.add o).after x.items := by
  obtain ⟨items, ending⟩ := x
  cases hx
  rcases o with (_ | v) | topic | e | _ <;> simp [add, after, start]

/-- What the turns made known is supplied, and what is left is supplied from then on. -/
theorem Advances.follows (hs : s.Stores c .start) (ha : Advances h c s os t) :
    Follows h c s.calm t.calm (.ofTurns os) := by
  induction ha with
  | start =>
    intro y
    exact Iff.rfl
  | wait _ _ ih => exact ih
  | @turn os t items p turn fuel ha hc hn ho ih =>
    have hx := ((ha.stores hs).ending hc).1
    rw [Supply.ofTurns_concat, Supply.add_eq_after hx]
    exact ih.trans hx (Supplies.turn hc hn ho)

/-! ## Fetching -/

/-- What a look at the cell shows is what is known. -/
inductive Session.Shows (s : Session) (c i : Nat) (x : Supply) : Prop
  | item {v : Value} :
      x.at? i = some (.item v) → s.look (.cell c) i = .item v → Session.Shows s c i x
  | finish : x.at? i = some .done → s.look (.cell c) i = .finish → Session.Shows s c i x
  | failed {e : Error} :
      x.at? i = some (.failed e) → s.look (.cell c) i = .failed e → Session.Shows s c i x
  | unread {p : Producer} :
      x.items[i]? = none → s.cells[c]? = some ⟨x.items.toArray, some p, none⟩ →
      s.look (.cell c) i = .unread c p → Session.Shows s c i x

theorem Session.Stores.shows (hs : s.Stores c x) (i : Nat) : s.Shows c i x := by
  obtain ⟨source, hcell, hsource⟩ := hs
  obtain ⟨items, ending⟩ := x
  cases hi : items[i]? with
  | some v => exact .item (v := v) (by simp [Supply.at?, hi]) (by simp [look, hcell, hi])
  | none =>
    rcases ending with _ | _ | e
    · obtain ⟨p, rfl⟩ : ∃ p, source = some p := by
        cases source with
        | none => exact absurd rfl (hsource.1 rfl)
        | some p => exact ⟨p, rfl⟩
      have hcell : s.cells[c]? = some ⟨items.toArray, some p, none⟩ := hcell
      exact .unread hi hcell (by simp [look, hcell, hi])
    · obtain rfl := hsource.2 (by simp)
      exact .finish (by simp [Supply.at?, hi]) (by simp [look, hcell, hi, Supply.error?])
    · obtain rfl := hsource.2 (by simp)
      exact .failed (e := e) (by simp [Supply.at?, hi]) (by simp [look, hcell, hi, Supply.error?])

/-- What fetching an item comes to when this much is known: it goes on with the item, or with the
end, or it fails, or else it is to be made again. -/
inductive Fetched (h : Host) (c i : Nat) (k : Option Value → Producer) (x : Supply) (t : Session) :
    Turn → Prop
  | found {o : Option Value} (fuel : Nat) :
      x.at? i = some (.ready o) → Fetched h c i k x t (next h fuel (k o) t)
  | failed {e : Error} : x.at? i = some (.failed e) → Fetched h c i k x t (.failed e t)
  | pending {topic : Option Topic} :
      x.ending = none → Fetched h c i k x t ⟨.pending topic, .fetch (.cell c) i k, t⟩

/-- Fetching makes the turns that are missing. -/
theorem Advances.fetch {k : Option Value → Producer} {fuel : Nat} (hs : s.Stores c .start)
    (ha : Advances h c s os t)
    (ho : (next h fuel (.fetch (.cell c) i k) t).outcome ≠ .exhausted) :
    ∃ os' t', Advances h c t os' t' ∧
      Fetched h c i k (.ofTurns (os ++ os')) t' (next h fuel (.fetch (.cell c) i k) t) := by
  induction fuel generalizing os t with
  | zero => exact absurd rfl ho
  | succ fuel ih =>
    rw [next] at ho ⊢
    cases (ha.stores hs).shows i with
    | item hx hl =>
      rw [hl]
      exact ⟨[], t, .start, by rw [List.append_nil]; exact .found fuel hx⟩
    | finish hx hl =>
      rw [hl]
      exact ⟨[], t, .start, by rw [List.append_nil]; exact .found fuel hx⟩
    | failed hx hl =>
      rw [hl]
      exact ⟨[], t, .start, by rw [List.append_nil]; exact .failed hx⟩
    | @unread p hx hcell hl =>
      have hending := ((ha.stores hs).ending hcell).1
      simp only [hl] at ho ⊢
      cases hturn : next h fuel p (t.detach c) with
      | mk outcome rest u =>
        rw [hturn] at ho
        -- The turn of the source is one more, unless it has been given up.
        have hadd : outcome ≠ .exhausted → Advances h c t [outcome] (Turn.settle ⟨outcome, rest, u⟩ c) :=
          fun hne => .turn (l := []) fuel .start hcell hturn hne
        have hone : Supply.ofTurns (os ++ [outcome]) = (Supply.ofTurns os).add outcome :=
          Supply.ofTurns_concat os outcome
        rcases outcome with (_ | v) | topic | e | _
        · exact ⟨_, _, hadd (by simp), .found fuel (by simp [hone, Supply.add, Supply.at?, hx])⟩
        · obtain ⟨os', t', ha', hf⟩ := ih (ha.trans (hadd (by simp))) ho
          exact ⟨_, t', (hadd (by simp)).trans ha', by rwa [← List.append_assoc]⟩
        · exact ⟨_, _, hadd (by simp), .pending (by simpa [hone, Supply.add] using hending)⟩
        · exact ⟨_, _, hadd (by simp), .failed (by simp [hone, Supply.add, Supply.at?, hx])⟩
        · exact absurd rfl ho

end XPath
