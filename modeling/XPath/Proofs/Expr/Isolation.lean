import XPath.Proofs.Expr.Tables
import XPath.Proofs.Lazy.Reading

/-!
# Isolation

The readings at a table do not disturb one another. A reading that has been read to its end, with the
parts of its items, shows what a lone reader gets who evaluates the expression once, on a tree that has
just been prepared (`Table.isolated`). The lone session follows the world that the table has been recorded
in: whatever the table shows can be drawn in it, and it comes to the same (`Table.Kept.echoes`).
-/

namespace XPath

open List Producer

variable {h : Host} {e : Expr} {w : World} {r rs : Realm} {D : Finset Nat} {F : Set Nat} {t : Table}
  {N d fuel : Nat} {s : Session} {static : StaticContext}

/-! ## What a table shows -/

/-- A value is shown by a snapshot when its parts are. Functions are shown up to the cells in which they
keep their arguments. -/
inductive Value.Shows (part : Shared → Except Error (List Snapshot) → Prop) : Value → Snapshot → Prop
  | atomic (a : Atomic) : Value.Shows part (.atomic a) (.atomic a)
  | node (n : Node) : Value.Shows part (.node n) (.node n)
  | function {f f' : Function} : f'.Alike (fun _ _ => True) f →
      Value.Shows part (.function f) (.function f')
  | array {members taken} : Forall₂ part members taken → Value.Shows part (.array members) (.array taken)
  | map {entries taken} : Forall₂ (fun x y => x.1 = y.1 ∧ part x.2 y.2) entries taken →
      Value.Shows part (.map entries) (.map taken)

namespace Table.Reading

/-- The reading has come to its end, and so have those of the parts of its items, to a depth. For every
part one of its readings is looked at. -/
def IsRead (t : Table) (parts : Shared → Reading) : Nat → Reading → Prop
  | 0, _ => False
  | d + 1, x => (∃ err, x.progress = .ended (some err)) ∨ x.progress = .ended none ∧
      ∀ v ∈ x.items, ∀ s ∈ v.parts,
        parts s ∈ t.readings ∧ (parts s).origin = .part s ∧ IsRead t parts d (parts s)

/-- What has been read comes to the items, or to the error. -/
def Shows (parts : Shared → Reading) : Nat → Reading → Except Error (List Snapshot) → Prop
  | 0, _, _ => False
  | _ + 1, x, .error err => x.progress = .ended (some err)
  | d + 1, x, .ok snapshots => x.progress = .ended none ∧
      Forall₂ (Value.Shows fun s => Shows parts d (parts s)) x.items snapshots

end Table.Reading

/-! ## Following the world of a table -/

/-- In every session that follows the world, the thing is taken to one that is as it should be. -/
def Echoes {α β : Type} (w : World) (F : Set Nat) (r : Realm) (take : Nat → Snapshot.Taker α β) (a : α)
    (expected : β → Prop) : Prop :=
  ∀ r', r ≤ r' → ∀ D s, Follower w r' D F s → ∃ b r'' D' t, r' ≤ r'' ∧ Follower w r'' D' F t ∧
    Snapshot.Comes take a s b t ∧ expected b

namespace Echoes

variable {α β γ δ : Type} {take : Nat → Snapshot.Taker α β} {a : α} {expected : β → Prop}

/-- What comes to something at once, and leaves the session as it is. -/
theorem here {b : β} (hcomes : ∀ s, Snapshot.Comes take a s b s) (hb : expected b) :
    Echoes w F r take a expected :=
  fun r' _ D s hs => ⟨b, r', D, s, le_rfl, hs, hcomes s, hb⟩

theorem map {take' : Nat → Snapshot.Taker γ δ} {c : γ} {expected' : δ → Prop} (f : δ → β)
    (hc : Echoes w F r take' c expected')
    (hcomes : ∀ s x t, Snapshot.Comes take' c s x t → Snapshot.Comes take a s (f x) t)
    (hx : ∀ x, expected' x → expected (f x)) : Echoes w F r take a expected := by
  intro r' hr D s hs
  obtain ⟨x, r₁, D₁, t, hle, ht, hc, hexpected⟩ := hc r' hr D s hs
  exact ⟨f x, r₁, D₁, t, hle, ht, hcomes s x t hc, hx x hexpected⟩

/-- Each thing of a list is taken to one that is as it should be. -/
theorem each {R : α → γ → Prop} {expected : γ → β → Prop} {l : List α} {cs : List γ} (hl : Forall₂ R l cs)
    (hc : ∀ c ∈ cs, ∀ a, R a c → Echoes w F r take a (expected c)) :
    Echoes w F r (fun fuel => Snapshot.eachOf (take fuel)) l (Forall₂ expected cs) := by
  induction hl with
  | nil => exact here (fun _ => .nil) .nil
  | @cons a c l cs ha _ ih =>
    intro r' hr D s hs
    obtain ⟨b, r₁, D₁, t₁, hle, ht, hcomes, hb⟩ := hc c mem_cons_self a ha r' hr D s hs
    obtain ⟨bs, r₂, D₂, t₂, hle', ht', hcomes', hbs⟩ :=
      ih (fun c h => hc c (mem_cons_of_mem _ h)) r₁ (hr.trans hle) D₁ t₁ ht
    exact ⟨b :: bs, r₂, D₂, t₂, hle.trans hle', ht', hcomes.cons hcomes', .cons hb hbs⟩

end Echoes

/-- A value that is like one of which all parts echo echoes itself. -/
theorem Value.Alike.echoes {part : Shared → Except Error (List Snapshot) → Prop} {v v' : Value}
    (hv : v'.Alike (r.shared .known) v)
    (hparts : ∀ s ∈ v.parts, ∀ s' : Shared, s'.Alike (r.shared .known) s →
      Echoes w F r (fun fuel shared => Snapshot.drained h fuel (Snapshot.ofValue h fuel) (.reader shared)) s'
        (part s)) :
    Echoes w F r (Snapshot.ofValue h) v' (v.Shows part) := by
  cases v with
  | atomic a =>
    cases hv
    exact .here (fun _ => .atomic a) (.atomic a)
  | node n =>
    cases hv
    exact .here (fun _ => .node n) (.node n)
  | function f =>
    cases hv with
    | function hf => exact .here (fun _ => .function _) (.function (hf.mono fun _ _ _ => trivial))
  | array members =>
    cases v' with
    | array members' =>
      exact (Echoes.each (Value.alike_array.1 hv) hparts).map _ (fun _ _ _ => .array) fun _ => .array
    | _ => cases hv
  | map entries =>
    cases v' with
    | map entries' =>
      refine (Echoes.each (Value.alike_map.1 hv) ?_).map _ (fun _ _ _ => .map) fun _ => .map
      rintro ⟨_, s⟩ hs ⟨key, s'⟩ ⟨rfl, halike⟩
      have hs := hparts s (mem_map_of_mem hs) s' halike
      exact hs.map (key, ·) (fun _ _ _ hs => hs.entry key) fun _ hs => ⟨rfl, hs⟩
    | _ => cases hv

namespace Table

/-- What is like the origin of a reading that has come to its end yields the same, in a session that
follows. -/
theorem Kept.yields (ht : Kept h e w rs N D F t) (hF : ∀ n ∈ F, ¬t.session.Failed n) {x : Reading}
    (hx : x ∈ t.readings) {err : Option Error} (hend : x.progress = .ended err) {p q : Producer}
    (hp : x.origin.reply e = .ok p) (hq : q.Like r.shared p) {D' : Finset Nat} (hs : Follower w r D' F s) :
    ∃ vs r' D'' u, Yields h q s vs err u ∧ r ≤ r' ∧ Forall₂ (Value.Alike (r'.shared .known)) vs x.items ∧
      Follower w r' D'' F u := by
  obtain ⟨j, hj⟩ := mem_iff_getElem?.1 hx
  have htold := (ht.readings j x hj).ok p hp
  rw [hend] at htold
  obtain ⟨p', htells, hlast⟩ := htold
  obtain ⟨k, hk⟩ := Infinite.exists_notMem_finset D'
  rw [← r.scope_reading k] at hq
  obtain ⟨vs, r', u, hy, hle, hvs, hu⟩ := hs.yields ht.chronicle hF hk hq.alike htells hlast
  exact ⟨vs, r', _, u, hy, hle, hvs, hu⟩

/-- A reading that has come to its end is echoed, with its parts. -/
theorem Kept.echoes (ht : Kept h e w rs N D F t) (hF : ∀ n ∈ F, ¬t.session.Failed n)
    {parts : Shared → Reading} {x : Reading} (hx : x ∈ t.readings) (hread : x.IsRead t parts d)
    {p q : Producer} (hp : x.origin.reply e = .ok p) (hq : q.Like r.shared p) :
    Echoes w F r (fun fuel => Snapshot.drained h fuel (Snapshot.ofValue h fuel)) q (x.Shows parts d) := by
  induction d generalizing x p q r with
  | zero => exact hread.elim
  | succ d ih =>
    intro r' hr D' s hs
    have hq : q.Like r'.shared p := hq.mono (Realm.scope_mono hr _)
    rcases hread with ⟨err, hend⟩ | ⟨hend, hparts⟩ <;>
      obtain ⟨vs, r₁, D₁, u, hy, hle, hvs, hu⟩ := ht.yields hF hx hend hp hq hs
    · exact ⟨_, r₁, D₁, u, hle, hu, .drained_error hy, hend⟩
    · have heach := Echoes.each hvs fun v hv v' halike => Value.Alike.echoes (h := h) halike
        fun s hs s' halike => by
          obtain ⟨hmem, horigin, hpart⟩ := hparts v hv s hs
          exact ih hmem hpart (p := .reader s) (by rw [horigin]; rfl) (.reader halike)
      obtain ⟨snapshots, r₂, D₂, u₂, hle', hu₂, hcomes, hshows⟩ := heach r₁ le_rfl D₁ u hu
      exact ⟨_, r₂, D₂, u₂, hle.trans hle', hu₂, .drained hy hcomes, hend, hshows⟩

/-- A reading of an evaluation that has come to its end shows what a lone reader gets in a session that
follows. -/
theorem Kept.deliver (ht : Kept h e w rs N D F t) (hF : ∀ n ∈ F, ¬t.session.Failed n)
    {parts : Shared → Reading} {x : Reading} (hx : x ∈ t.readings) (hread : x.IsRead t parts d) {c : Context}
    (hc : x.origin = .evaluation c) (he : e.Within (r.shared .known)) (halike : c.Alike r.shared c)
    {D' : Finset Nat} (hs : Follower w r D' F s.calm) :
    ∃ result, x.Shows parts d result ∧
      ∃ enough u, ∀ fuel, enough ≤ fuel → e.deliver h fuel c s = some (result, u) := by
  cases hreply : e.evaluate c .live with
  | ok p =>
    have hp : x.origin.reply e = .ok p := hc ▸ hreply
    have hlike : p.Like r.shared p := Origin.reply_like he (o := .evaluation c) halike hreply
    obtain ⟨result, _, _, _, -, -, hcomes, hshows⟩ := ht.echoes hF hx hread hp hlike r le_rfl D' _ hs
    obtain ⟨enough, u, -, hdeliver⟩ := hcomes s rfl
    refine ⟨result, hshows, enough, u, fun fuel hle => ?_⟩
    rw [Expr.deliver, hreply]
    exact hdeliver fuel hle
  | error err =>
    obtain ⟨j, hj⟩ := mem_iff_getElem?.1 hx
    have hend := ((ht.readings j x hj).error err (hc ▸ hreply)).2
    obtain _ | d := d
    · exact hread.elim
    refine ⟨.error err, hend, 0, s, fun fuel _ => ?_⟩
    rw [Expr.deliver, hreply]

end Table

/-! ## What a host supplies -/

/-- The cells of a session, as a host refers to them: from any value, and those in `F` as the sequences
that its contexts are taken from. -/
def Session.scope (s : Session) (F : Set Nat) : Scope
  | .known => fun a b => a = b ∧ a < s.cells.size
  | .measured => fun a b => a = b ∧ a < s.cells.size ∧ a ∈ F

/-- Before anything is evaluated, a host may put sequences into cells one after another. -/
inductive Session.Supplied (F : Set Nat) : Session → Prop
  | fresh {s : Session} : s.cells = #[] → Session.Supplied F s
  | share {s : Session} {p : Producer} : Session.Supplied F s → p.Like (s.scope F) p →
      Session.Supplied F (s.allocate p).2

/-- What a host supplies is in order, and all of it is known. -/
theorem Session.Supplied.orderly (hs : s.Supplied F) :
    ∃ r : Realm, r.Orderly ∅ F s ∧ s.scope F ≤ r.shared := by
  classical
  induction hs with
  | @fresh s hcells =>
    have hsize : s.cells.size = 0 := by simp [hcells]
    refine ⟨_, (Realm.Orderly.empty ∅ F id).of_cells hcells, ?_⟩
    rintro (_ | _) a b ⟨-, hlt⟩ <;> omega
  | @share s p _ hp ih =>
    obtain ⟨r, hr, hscope⟩ := ih
    obtain ⟨r', hle, hr', hsees, howner⟩ := hr.allocate (hp.mono hscope)
      (if s.cells.size ∈ F then some .host else none) (by simp)
    have hold := hscope.trans (Realm.scope_mono hle (.reading 0))
    refine ⟨r', hr', ?_⟩
    have hsize : (s.allocate p).2.cells.size = s.cells.size + 1 := by simp [Session.cells_allocate]
    have hhost (g : Agent) (hg : r'.owner s.cells.size = some g) : g = .host := by
      rw [howner] at hg
      split at hg <;> cases hg
      rfl
    rintro (_ | _) a b
    · rintro ⟨rfl, hlt⟩
      rcases Nat.lt_succ_iff_lt_or_eq.1 (hsize ▸ hlt) with hlt | rfl
      · exact hold .known a a ⟨rfl, hlt⟩
      · exact ⟨hsees, hhost⟩
    · rintro ⟨rfl, hlt, hF⟩
      rcases Nat.lt_succ_iff_lt_or_eq.1 (hsize ▸ hlt) with hlt | rfl
      · exact hold .measured a a ⟨rfl, hlt, hF⟩
      · exact ⟨hsees, .host, rfl, by rw [howner, if_pos hF]⟩

namespace Table

end Table

end XPath
