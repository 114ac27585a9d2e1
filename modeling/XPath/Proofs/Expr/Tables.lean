import XPath.Expr.Delivery
import XPath.Proofs.Expr.Preparation

/-!
# Tables of readings

A host evaluates one prepared expression in several contexts and reads the results side by side. The
readings lie on a table; every action starts one, pulls one, or waits. A reading may be left where it is
at any time. All of them share the session, so each may find computed what another one has asked for.

Whatever is done at a table, a world records it (`Table.Kept.run`): it retells every item that has been
read, and the end or the error of what has been read to its end.
-/

namespace XPath

open List Producer

/-- What is read. -/
inductive Origin where
  | evaluation (c : Context)
  /-- A member of an array or a value of a map. -/
  | part (shared : Shared)

namespace Table

inductive Progress where
  | going (rest : Producer)
  /-- Read to the end, or ended by an error. -/
  | ended (e : Option Error)

/-- The items that have been read so far, in order. -/
structure Reading where
  origin : Origin
  items : List Value
  progress : Progress

inductive Action where
  /-- Evaluate the expression in a context. -/
  | evaluate (c : Context)
  /-- Read a part of an item that has been read. -/
  | enter (reading item part : Nat)
  /-- Ask a reading for its next item. -/
  | pull (reading fuel : Nat)
  | wait (topic : Option Topic)

end Table

/-- The readings of one expression, in the order in which they have been started. -/
structure Table where
  session : Session
  readings : List Table.Reading

/-- The sequences that a value holds. -/
def Value.parts : Value → List Shared
  | .array members => members
  | .map entries => entries.map (·.2)
  | _ => []

/-- What there is to read; an error may be raised before any item is asked for. -/
def Origin.reply (e : Expr) : Origin → Reply
  | evaluation c => e.evaluate c .live
  | part shared => .ok (reader shared)

namespace Table

def Reading.start (e : Expr) (o : Origin) : Reading :=
  match o.reply e with
  | .ok p => ⟨o, [], .going p⟩
  | .error err => ⟨o, [], .ended (some err)⟩

/-- The reading after a turn of what is left of it. -/
def Reading.advance (x : Reading) (t : Turn) : Reading :=
  match t.outcome with
  | .ready (some v) => ⟨x.origin, x.items ++ [v], .going t.rest⟩
  | .ready none => { x with progress := .ended none }
  | .failed e => { x with progress := .ended (some e) }
  | .pending _ | .exhausted => { x with progress := .going t.rest }

def part? (t : Table) (reading item part : Nat) : Option Shared := do
  let x ← t.readings[reading]?
  let v ← x.items[item]?
  v.parts[part]?

def start (e : Expr) (o : Origin) (t : Table) : Table :=
  { t with readings := t.readings ++ [.start e o] }

/-- One action at the table; nothing happens if there is nothing that it could refer to. -/
def act (h : Host) (e : Expr) (t : Table) : Action → Table
  | .evaluate c => t.start e (.evaluation c)
  | .enter reading item part =>
    match t.part? reading item part with
    | some shared => t.start e (.part shared)
    | none => t
  | .pull reading fuel =>
    match t.readings[reading]? with
    | some ⟨o, items, .going p⟩ =>
      let turn := p.next h fuel t.session
      ⟨turn.session, t.readings.set reading (.advance ⟨o, items, .going p⟩ turn)⟩
    | _ => t
  | .wait topic => { t with session := t.session.await topic }

def run (h : Host) (e : Expr) (t : Table) (actions : List Action) : Table := actions.foldl (act h e) t

/-! ## Errors stay -/

variable {h : Host} {e : Expr} {w w' : World} {r r' : Realm} {D D' : Finset Nat} {F : Set Nat} {t : Table}
  {k n N : Nat} {x : Reading} {o : Origin}

theorem failed_act (a : Action) (ht : t.session.Failed n) : (t.act h e a).session.Failed n := by
  cases a with
  | evaluate | wait => exact ht
  | enter reading item part =>
    rw [act]
    split
    · exact ht
    · exact ht
  | pull reading fuel =>
    rw [act]
    split
    · exact failed_next fuel _ _ ht
    · exact ht

theorem failed_run (actions : List Action) (ht : t.session.Failed n) :
    (t.run h e actions).session.Failed n := by
  induction actions generalizing t with
  | nil => exact ht
  | cons a actions ih => exact ih (failed_act a ht)

/-! ## Where readings come from -/

/-- What has been read of a producer is retold, and what is left goes on from there. -/
def Progress.Told (h : Host) (w : World) (τ : Ties) (p : Producer) (items : List Value) :
    Progress → Prop
  | .going q => Tells h w p items q ∧ q.Alike τ q
  | .ended e => ∃ q, Tells h w p items q ∧ Retells h w q (.ending e)

/-- The reading is retold by the world. -/
structure Reading.Told (h : Host) (e : Expr) (w : World) (r : Realm) (k : Nat) (x : Reading) :
    Prop where
  items : Forall₂ (Value.Alike (r.shared .known)) x.items x.items
  ok : ∀ p, x.origin.reply e = .ok p → x.progress.Told h w (r.ties (.reading k)) p x.items
  error : ∀ err, x.origin.reply e = .error err → x.items = [] ∧ x.progress = .ended (some err)

/-- The world records the session, and it retells all readings. They are numbered from `N` on, and only
those that have ended may be gone. -/
structure Kept (h : Host) (e : Expr) (w : World) (r : Realm) (N : Nat) (D : Finset Nat) (F : Set Nat)
    (t : Table) : Prop where
  chronicle : Chronicle h w r D F t.session
  readings : ∀ j (x : Reading), t.readings[j]? = some x → x.Told h e w r (N + j)
  gone : ∀ j, N + j ∈ D → ∃ x err, t.readings[j]? = some x ∧ x.progress = .ended err

theorem Progress.Told.mono {p : Producer} {items : List Value} {progress : Progress} {τ τ' : Ties}
    (hw : w ≤ w') (hτ : τ ≤ τ') (hp : progress.Told h w τ p items) : progress.Told h w' τ' p items := by
  cases progress with
  | going q => exact ⟨hp.1.mono hw, hp.2.mono hτ⟩
  | ended e =>
    obtain ⟨q, htells, hend⟩ := hp
    exact ⟨q, htells.mono hw, hend.mono hw⟩

theorem Reading.Told.mono (hw : w ≤ w') (hr : r ≤ r') (hx : x.Told h e w r k) :
    x.Told h e w' r' k where
  items := hx.items.imp fun _ _ h => h.mono (Realm.scope_mono hr _ .known)
  ok p hp := (hx.ok p hp).mono hw (Realm.ties_mono hr _)
  error := hx.error

end Table

/-! ### Starting -/

/-- The origin refers to cells that are known. -/
def Origin.Within (β : Scope) : Origin → Prop
  | .evaluation c => c.Alike β c
  | .part shared => shared.Alike (β .known) shared

/-- What there is to read refers to cells that are known. -/
theorem Origin.reply_like {e : Expr} {r : Realm} {o : Origin} {p : Producer}
    (he : e.Within (r.shared .known)) (ho : o.Within r.shared) (hp : o.reply e = .ok p) :
    p.Like r.shared p := by
  cases o with
  | evaluation c =>
    have halike := Expr.evaluate_respects he _ le_rfl _ _ ho .live
    rw [show e.evaluate c .live = .ok p from hp] at halike
    cases halike
    assumption
  | part shared =>
    cases hp
    exact .reader ho

namespace Table

variable {h : Host} {e : Expr} {w : World} {r : Realm} {D : Finset Nat} {F : Set Nat} {t : Table}
  {k N : Nat} {x : Reading} {o : Origin}

theorem Reading.told_start (he : e.Within (r.shared .known)) (ho : o.Within r.shared) :
    (Reading.start e o).Told h e w r k where
  items := by
    rw [Reading.start]
    split <;> exact .nil
  ok p hp := by
    have hp : o.reply e = .ok p := by
      rw [Reading.start] at hp
      split at hp <;> exact hp
    simp only [Reading.start, hp]
    have hlike : p.Like (r.scope (.reading k)) p := by
      rw [r.scope_reading]
      exact Origin.reply_like he ho hp
    exact ⟨.nil (.refl p), hlike.alike⟩
  error err herr := by
    have herr : o.reply e = .error err := by
      rw [Reading.start] at herr
      split at herr <;> exact herr
    simp only [Reading.start, herr, and_self]

theorem Kept.start (ht : Kept h e w r N D F t) (he : e.Within (r.shared .known)) (ho : o.Within r.shared) :
    Kept h e w r N D F (t.start e o) where
  chronicle := ht.chronicle
  readings j x hx := by
    rw [Table.start] at hx
    rcases Nat.lt_or_ge j t.readings.length with hj | hj
    · exact ht.readings j x (List.getElem?_append_left hj ▸ hx)
    · rw [List.getElem?_append_right hj, List.getElem?_singleton] at hx
      split at hx
      · cases hx
        exact Reading.told_start he ho
      · cases hx
  gone j hj := by
    obtain ⟨x, err, hx, hend⟩ := ht.gone j hj
    obtain ⟨hlt, -⟩ := List.getElem?_eq_some_iff.1 hx
    exact ⟨x, err, (List.getElem?_append_left hlt).trans hx, hend⟩

/-! ### Pulling -/

/-- A reading goes on as its turn is retold. -/
theorem Reading.Told.advance {p : Producer} {items : List Value} {turn : Turn} {w' : World} {r' : Realm}
    (hx : Reading.Told h e w r k ⟨o, items, .going p⟩) (hw : w ≤ w') (hr : r ≤ r')
    (ht : turn.Retold h w' (r'.ties (.reading k)) p) :
    (Reading.advance ⟨o, items, .going p⟩ turn).Told h e w' r' k := by
  obtain ⟨p₀, hp₀⟩ : ∃ p₀, o.reply e = .ok p₀ := by
    cases hreply : o.reply e with
    | ok p₀ => exact ⟨p₀, rfl⟩
    | error err => cases (hx.error err hreply).2
  have hitems := hx.items.imp fun _ _ h => h.mono (Realm.scope_mono hr _ .known)
  obtain ⟨htells, -⟩ := hx.ok p₀ hp₀
  have htells := htells.mono hw
  have told {items : List Value} {progress : Progress}
      (hitems : Forall₂ (Value.Alike (r'.shared .known)) items items)
      (hp : progress.Told h w' (r'.ties (.reading k)) p₀ items) :
      Reading.Told h e w' r' k ⟨o, items, progress⟩ := by
    refine ⟨hitems, fun p hp' => ?_, fun err herr => ?_⟩
    · cases hp₀.symm.trans hp'
      exact hp
    · cases hp₀.symm.trans herr
  obtain ⟨(_ | v) | topic | err | _, rest, s⟩ := turn
  case ready.none => exact told hitems ⟨p, htells, ht⟩
  case ready.some =>
    obtain ⟨hd, hv, hrest⟩ := ht
    have hv : v.Alike (r'.scope (.reading k) .known) v := hv
    rw [r'.scope_reading] at hv
    exact told (rel_append hitems (.cons hv .nil)) ⟨htells.snoc hd, hrest⟩
  case failed => exact told hitems ⟨p, htells, ht⟩
  all_goals exact told hitems ⟨htells.resume ht.1, ht.2⟩

theorem Reading.advance_of_fails {p : Producer} {items : List Value} {turn : Turn} (ht : turn.Fails) :
    ∃ err, (Reading.advance ⟨o, items, .going p⟩ turn).progress = .ended err := by
  obtain ⟨_ | _ | err | _, rest, s⟩ := turn
  case failed => exact ⟨some err, rfl⟩
  all_goals exact ht.elim

theorem Kept.pull (ht : Kept h e w r N D F t) {j fuel : Nat} {items : List Value} {p : Producer}
    (hx : t.readings[j]? = some ⟨o, items, .going p⟩)
    (hF : ∀ n ∈ F, ¬(p.next h fuel t.session).session.Failed n) :
    ∃ w' r' D', w ≤ w' ∧ r ≤ r' ∧ Kept h e w' r' N D' F ⟨(p.next h fuel t.session).session,
      t.readings.set j (.advance ⟨o, items, .going p⟩ (p.next h fuel t.session))⟩ := by
  have htold := ht.readings j _ hx
  have hlive : N + j ∉ D := by
    intro hj
    obtain ⟨x, err, hx', hend⟩ := ht.gone j hj
    cases hx.symm.trans hx'
    cases hend
  have hp : p.Alike (r.ties (.reading (N + j))) p := by
    cases hreply : o.reply e with
    | ok p₀ => exact (htold.ok p₀ hreply).2
    | error err => cases (htold.error err hreply).2
  obtain ⟨w', r', hw, hr, hgone, hgoes, hret⟩ := ht.chronicle.turn hlive hp fuel hF
  generalize p.next h fuel t.session = turn at hgone hgoes hret ⊢
  obtain ⟨hj, -⟩ := List.getElem?_eq_some_iff.1 hx
  have hreadings (i : Nat) (x : Reading)
      (hi : (t.readings.set j (.advance ⟨o, items, .going p⟩ turn))[i]? = some x) :
      x.Told h e w' r' (N + i) := by
    by_cases hij : j = i
    · subst hij
      rw [List.getElem?_set_self hj] at hi
      cases hi
      exact htold.advance hw hr hret
    · rw [List.getElem?_set_ne hij] at hi
      exact (ht.readings i x hi).mono hw hr
  have hended (i : Nat) (hi : N + i ∈ D) :
      ∃ x err, (t.readings.set j (.advance ⟨o, items, .going p⟩ turn))[i]? = some x ∧
        x.progress = .ended err := by
    obtain ⟨x, err, hx, hend⟩ := ht.gone i hi
    have hij : j ≠ i := by
      rintro rfl
      exact hlive hi
    exact ⟨x, err, (List.getElem?_set_ne hij).trans hx, hend⟩
  by_cases hf : turn.Fails
  · refine ⟨w', r', insert (N + j) D, hw, hr, hgone, hreadings, fun i hi => ?_⟩
    rcases Finset.mem_insert.1 hi with hi | hi
    · obtain rfl : i = j := by omega
      obtain ⟨err, hend⟩ := Reading.advance_of_fails hf
      exact ⟨_, err, List.getElem?_set_self hj, hend⟩
    · exact hended i hi
  · exact ⟨w', r', D, hw, hr, hgoes hf, hreadings, hended⟩

/-! ### Any action -/

/-- The parts of a value refer to cells that are known if the value does. -/
theorem alike_of_mem_parts {ρ : Matching} {v : Value} {s : Shared} (hv : v.Alike ρ v) (hs : s ∈ v.parts) :
    s.Alike ρ s := by
  cases v with
  | array members => exact forall₂_same.1 (Value.alike_array.1 hv) s hs
  | map entries =>
    obtain ⟨entry, hentry, rfl⟩ := List.mem_map.1 hs
    exact (forall₂_same.1 (Value.alike_map.1 hv) entry hentry).2
  | atomic | node | function => cases hs

/-- The action refers to cells that are known. -/
def Action.Within (β : Scope) : Action → Prop
  | .evaluate c => c.Alike β c
  | _ => True

theorem Action.Within.mono {β β' : Scope} (hβ : β ≤ β') {a : Action} (ha : a.Within β) : a.Within β' := by
  cases a with
  | evaluate c => exact Context.Alike.mono hβ ha
  | _ => trivial

/-- After an action at the table a world records it that has all that was recorded before. -/
theorem Kept.act (ht : Kept h e w r N D F t) (he : e.Within (r.shared .known)) {a : Action}
    (ha : a.Within r.shared) (hF : ∀ n ∈ F, ¬(t.act h e a).session.Failed n) :
    ∃ w' r' D', w ≤ w' ∧ r ≤ r' ∧ Kept h e w' r' N D' F (t.act h e a) := by
  cases a with
  | evaluate c => exact ⟨w, r, D, le_rfl, le_rfl, ht.start he (o := .evaluation c) ha⟩
  | wait topic => exact ⟨w, r, D, le_rfl, le_rfl, ht.chronicle.of_cells rfl, ht.readings, ht.gone⟩
  | enter reading item part =>
    rw [Table.act]
    split
    next shared hs =>
      refine ⟨w, r, D, le_rfl, le_rfl, ht.start he (o := .part shared) ?_⟩
      simp only [part?, Option.bind_eq_bind, Option.bind_eq_some_iff] at hs
      obtain ⟨x, hx, v, hv, hpart⟩ := hs
      have hv := forall₂_same.1 (ht.readings reading x hx).items v (List.mem_of_getElem? hv)
      exact alike_of_mem_parts hv (List.mem_of_getElem? hpart)
    · exact ⟨w, r, D, le_rfl, le_rfl, ht⟩
  | pull reading fuel =>
    rw [Table.act] at hF ⊢
    split
    next o items p hx =>
      rw [hx] at hF
      exact ht.pull hx hF
    · exact ⟨w, r, D, le_rfl, le_rfl, ht⟩

/-- Whatever is done at a table, a world records it. -/
theorem Kept.run (ht : Kept h e w r N D F t) (he : e.Within (r.shared .known)) {actions : List Action}
    (ha : ∀ a ∈ actions, a.Within r.shared) (hF : ∀ n ∈ F, ¬(t.run h e actions).session.Failed n) :
    ∃ w' r' D', w ≤ w' ∧ r ≤ r' ∧ Kept h e w' r' N D' F (t.run h e actions) := by
  induction actions generalizing t w r D with
  | nil => exact ⟨w, r, D, le_rfl, le_rfl, ht⟩
  | cons a actions ih =>
    obtain ⟨w₁, r₁, D₁, hw₁, hr₁, ht₁⟩ := ht.act he (ha a List.mem_cons_self) fun n hn hf =>
      hF n hn (failed_run actions hf)
    have hscope := Realm.scope_mono hr₁ (.reading 0)
    obtain ⟨w', r', D', hw, hr, ht'⟩ := ih ht₁ (he.mono (hscope .known))
      (fun a ha' => (ha a (List.mem_cons_of_mem _ ha')).mono hscope) hF
    exact ⟨w', r', D', hw₁.trans hw, hr₁.trans hr, ht'⟩

end Table

end XPath
