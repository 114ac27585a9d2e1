import XPath.Proofs.Lazy.Combinators
import XPath.Proofs.Lazy.Replays

/-!
# Retelling

`Retells` follows the machine over a world, rule by rule as `Draws` does over a session. What is drawn is
looked up in the world where a cell is read, and a sequence that is put into a cell is found there. A draw
that is retold can be replayed (`Retells.replays`).
-/

namespace XPath

open Producer

variable {h : Host} {w w' : World} {r r' : Realm} {s t : Session} {D : Finset Nat} {Δ : Set Nat}
  {v : View}

/-- A cell with nothing left to compute gives its items. -/
theorem Producer.Yields.read {a i : Nat} {items : Array Value}
    (ha : s.cells[a]? = some ⟨items, none, none⟩) :
    Yields h (.call (.read a i)) s (items.toList.drop i) none s := by
  generalize hvs : items.toList.drop i = vs
  have hi : items[i]? = vs.head? := by rw [← hvs, List.head?_drop, Array.getElem?_toList]
  induction vs generalizing i with
  | nil =>
    have hl : s.look (.cell a) i = .finish := by simp [Session.look, ha, hi]
    exact .finish (.call (.fetch_finish hl .done))
  | cons u vs ih =>
    have hl : s.look (.cell a) i = .item u := by simp [Session.look, ha, hi]
    have htail : items.toList.drop (i + 1) = vs := by rw [← List.tail_drop, hvs]; rfl
    refine .item (.call (.fetch_item hl .emit)) (ih htail ?_)
    rw [← htail, List.head?_drop, Array.getElem?_toList]

/-- Sequences that may be measured are drained alike. -/
theorem Scope.Measurable.drain {τ : Ties} {m n : Nat} (hs : τ.scope .measured m n) :
    (drain (reader (.cell m)) fun items => singleton (.integer items.length)).Alike τ
      (drain (reader (.cell n)) fun items => singleton (.integer items.length)) := by
  refine .gather false (.call (.read (.measured hs))) .nil (fun _ _ _ _ _ _ _ hkept hv => ?_)
    fun τ' _ kept kept' hkept => ?_
  · exact .more (.cons hv hkept)
  · simp only [List.length_reverse, hkept.length_eq]
    exact (Producer.Like.atomic _).alike

/-- A sequence is put into a cell that stands for the one of the world that it is found in. -/
theorem Replica.allocate {n : Nat} {x : Past} {p p' : Producer} (hs : Replica w r s D Δ v)
    (hx : w.past n = some x) (hfirst : x.first = ⟨#[], some p, none⟩)
    (hp : p'.Alike (.of (r.scope v)) p) {owner : Option Agent} (hhost : owner ≠ some .host) :
    ∃ r', Replica w r' (s.allocate p').2 D Δ v ∧ Passage v D Δ False r s r' (s.allocate p').2 ∧
      r'.Sees v s.cells.size n ∧ r'.owner s.cells.size = owner := by
  obtain ⟨r', hle, hsize, hsees, howner, hties⟩ := r.exists_add v owner n
  have hpassage : Passage v D Δ False r s r' (s.allocate p').2 :=
    .allocate hs.ready hle hsize (howner ▸ hhost)
  have heq := hs.ready.fits.size
  refine ⟨r', hs.after hpassage fun a ha hΔ => ?_, hpassage, heq ▸ hsees, heq ▸ howner⟩
  by_cases hnew : a = r.size
  · subst hnew
    refine ⟨x, [], ⟨#[], some p', none⟩, hsees.partner ▸ hx, List.nil_prefix, ?_, ?_⟩
    · simp [Session.cells_allocate, heq]
    · rw [Past.state, List.foldl_nil, hfirst]
      exact ⟨.nil, .some (hp.mono hties), rfl⟩
  · have hlt : a < r.size := by omega
    refine ((hs.agrees a hlt hΔ).grow hle hlt).congr ?_
    simp [Session.cells_allocate, Array.getElem?_push, ← heq, hnew]

namespace Gathering.Alike

variable {ρ : Matching} {g : Gathering} {vs : List Value} {e : Error}

theorem of_more (hg : g.Alike ρ (.more vs)) :
    ∃ vs', g = .more vs' ∧ List.Forall₂ (Value.Alike ρ) vs' vs := by
  cases hg with
  | more hvs => exact ⟨_, rfl, hvs⟩

theorem of_enough (hg : g.Alike ρ (.enough vs)) :
    ∃ vs', g = .enough vs' ∧ List.Forall₂ (Value.Alike ρ) vs' vs := by
  cases hg with
  | enough hvs => exact ⟨_, rfl, hvs⟩

theorem of_fail (hg : g.Alike ρ (.fail e)) : g = .fail e := by
  cases hg
  rfl

end Gathering.Alike

namespace Replays

variable {p p' q q' : Producer} {d : Draw} {u : Value} {e : Error}

/-- An item is replayed by an inner producer, perhaps that of a predicate. -/
theorem item (hp : Replays h w p (.item u p')) (hw : w ≤ w') (hs : Replica w' r s D Δ v) (b : Bool)
    (hq : q.Alike ((r.ties v).sourced b) p) :
    ∃ u' q' r' t, Draws h q s (.item u' q') t ∧ u'.Alike (((r'.ties v).sourced b).scope .known) u ∧
      q'.Alike ((r'.ties v).sourced b) p' ∧ Passage v D Δ False r s r' t ∧
      Replica w' r' t D Δ v := by
  rw [Realm.ties_sourced] at hq
  obtain ⟨d', r', t, hd, halike, hagrees, hpassage⟩ := hp w' hw r s D Δ _ (hs.sourced b) q hq
  rw [← Realm.ties_sourced] at halike
  have hpassage := hpassage.congr (u := v) (View.crew_sourced b)
  cases halike with
  | item hu hq' => exact ⟨_, _, r', t, hd, hu, hq', hpassage, hs.after hpassage hagrees⟩

theorem finish (hp : Replays h w p .finish) (hw : w ≤ w') (hs : Replica w' r s D Δ v) (b : Bool)
    (hq : q.Alike ((r.ties v).sourced b) p) :
    ∃ r' t, Draws h q s .finish t ∧ Passage v D Δ False r s r' t ∧ Replica w' r' t D Δ v := by
  rw [Realm.ties_sourced] at hq
  obtain ⟨d', r', t, hd, halike, hagrees, hpassage⟩ := hp w' hw r s D Δ _ (hs.sourced b) q hq
  have hpassage := hpassage.congr (u := v) (View.crew_sourced b)
  cases halike with
  | finish => exact ⟨r', t, hd, hpassage, hs.after hpassage hagrees⟩

/-- The error of an inner producer is that of the outer one. -/
theorem failed (hp : Replays h w p (.failed e)) (hw : w ≤ w') (hs : Replica w' r s D Δ v) (b : Bool)
    (hq : q.Alike ((r.ties v).sourced b) p)
    (hd : ∀ t, Draws h q s (.failed e) t → Draws h q' s (.failed e) t) :
    Comes h w' r s D Δ v q' (.failed e) := by
  rw [Realm.ties_sourced] at hq
  obtain ⟨d', r', t, hdraws, halike, hagrees, hpassage⟩ := hp w' hw r s D Δ _ (hs.sourced b) q hq
  have hpassage := hpassage.congr (u := v) (View.crew_sourced b)
  cases halike with
  | failed => exact ⟨_, r', t, hd t hdraws, .failed, hagrees, hpassage⟩

/-! ### One rule after the other -/

variable {first : Producer} {second : Unit → Producer} {i : Nat} {kept kept' : List Value}
  {source source' : Producer} {k : List Value → Producer}
  {step : Nat → List Value → Value → Gathering} {body : Nat → Value → Producer}
  {finish' : Nat → Producer}

theorem append_item (hp : Replays h w first (.item u p')) :
    Replays h w (.append first second) (.item u (.append p' second)) := by
  intro w' hw r s D Δ v hs q hq
  cases hq with
  | append hf hsecond =>
    obtain ⟨u', q', r', t, hd, hu, hq', hpassage, hs'⟩ := hp.item hw hs false hf
    have hrest := Producer.Alike.append hq' (hsecond.mono (Realm.ties_mono hpassage.le v))
    exact ⟨_, r', t, .append_item hd, .item hu hrest, hs'.agrees, hpassage⟩

theorem append_finish (hp : Replays h w first .finish) (hq : Replays h w (second ()) d) :
    Replays h w (.append first second) d := by
  intro w' hw r s D Δ v hs q hq'
  cases hq' with
  | append hf hsecond =>
    obtain ⟨r', t, hd, hpassage, hs'⟩ := hp.finish hw hs false hf
    have hsecond' := hsecond.mono (Realm.ties_mono hpassage.le v)
    exact (hq w' hw r' t D Δ v hs' _ hsecond').onward hpassage (.append_finish hd)

theorem append_failed (hp : Replays h w first (.failed e)) :
    Replays h w (.append first second) (.failed e) := by
  intro w' hw r s D Δ v hs q hq
  cases hq with
  | append hf _ => exact hp.failed hw hs false hf fun _ => .append_failed

theorem gather_more (hp : Replays h w source (.item u source')) (hstep : step i kept u = .more kept')
    (hq : Replays h w (.gather step (i + 1) kept' source' k) d) :
    Replays h w (.gather step i kept source k) d := by
  intro w' hw r s D Δ v hs q hq'
  cases hq' with
  | gather b hsource hkept hsteps hk =>
    obtain ⟨u', q', r', t, hd, hu, hq', hpassage, hs'⟩ := hp.item hw hs b hsource
    have hties := Realm.ties_mono hpassage.le v
    have hkept' := hkept.imp fun _ _ h => h.mono ((Ties.sourced_mono hties b).1 .known)
    obtain ⟨vs, hx, hvs⟩ := (hstep ▸ hsteps _ hties i _ _ _ _ hkept' hu).of_more
    have halike := Producer.Alike.gather (i := i + 1) b hq' hvs (fun τ' hτ => hsteps τ' (hties.trans hτ))
      fun τ' hτ => hk τ' (hties.trans hτ)
    exact (hq w' hw r' t D Δ v hs' _ halike).onward hpassage (.gather_more hd hx)

theorem gather_enough (hp : Replays h w source (.item u source'))
    (hstep : step i kept u = .enough kept') (hq : Replays h w (k kept') d) :
    Replays h w (.gather step i kept source k) d := by
  intro w' hw r s D Δ v hs q hq'
  cases hq' with
  | gather b hsource hkept hsteps hk =>
    obtain ⟨u', q', r', t, hd, hu, -, hpassage, hs'⟩ := hp.item hw hs b hsource
    have hties := Realm.ties_mono hpassage.le v
    have hkept' := hkept.imp fun _ _ h => h.mono ((Ties.sourced_mono hties b).1 .known)
    obtain ⟨vs, hx, hvs⟩ := (hstep ▸ hsteps _ hties i _ _ _ _ hkept' hu).of_enough
    exact (hq w' hw r' t D Δ v hs' _ (hk _ hties _ _ hvs)).onward hpassage (.gather_enough hd hx)

theorem gather_fail (hp : Replays h w source (.item u source')) (hstep : step i kept u = .fail e) :
    Replays h w (.gather step i kept source k) (.failed e) := by
  intro w' hw r s D Δ v hs q hq'
  cases hq' with
  | gather b hsource hkept hsteps hk =>
    obtain ⟨u', q', r', t, hd, hu, -, hpassage, hs'⟩ := hp.item hw hs b hsource
    have hties := Realm.ties_mono hpassage.le v
    have hkept' := hkept.imp fun _ _ h => h.mono ((Ties.sourced_mono hties b).1 .known)
    have hx := (hstep ▸ hsteps _ hties i _ _ _ _ hkept' hu).of_fail
    exact ⟨_, r', t, .gather_fail hd hx, .failed, hs'.agrees, hpassage.trans (.refl hs'.ready)⟩

theorem gather_finish (hp : Replays h w source .finish) (hq : Replays h w (k kept) d) :
    Replays h w (.gather step i kept source k) d := by
  intro w' hw r s D Δ v hs q hq'
  cases hq' with
  | gather b hsource hkept hsteps hk =>
    obtain ⟨r', t, hd, hpassage, hs'⟩ := hp.finish hw hs b hsource
    have hties := Realm.ties_mono hpassage.le v
    have hkept' := hkept.imp fun _ _ h => h.mono ((Ties.sourced_mono hties b).1 .known)
    exact (hq w' hw r' t D Δ v hs' _ (hk _ hties _ _ hkept')).onward hpassage (.gather_finish hd)

theorem gather_failed (hp : Replays h w source (.failed e)) :
    Replays h w (.gather step i kept source k) (.failed e) := by
  intro w' hw r s D Δ v hs q hq
  cases hq with
  | gather b hsource _ _ _ => exact hp.failed hw hs b hsource fun _ => .gather_failed

theorem forEach_item (hp : Replays h w source (.item u source'))
    (hq : Replays h w (.append (body i u) fun _ => .forEach (i + 1) source' body finish') d) :
    Replays h w (.forEach i source body finish') d := by
  intro w' hw r s D Δ v hs q hq'
  cases hq' with
  | forEach hsource hbody hfinish =>
    obtain ⟨u', q', r', t, hd, hu, hq', hpassage, hs'⟩ := hp.item hw hs false hsource
    have hties := Realm.ties_mono hpassage.le v
    have hrest := Producer.Alike.forEach (i := i + 1) hq' (fun τ' hτ => hbody τ' (hties.trans hτ))
      fun i => (hfinish i).mono hties
    have halike := Producer.Alike.append (f := fun _ => .forEach (i + 1) q' _ _)
      (g := fun _ => .forEach (i + 1) source' body finish') (hbody _ hties i _ _ hu) hrest
    exact (hq w' hw r' t D Δ v hs' _ halike).onward hpassage (.forEach_item hd)

theorem forEach_finish (hp : Replays h w source .finish) (hq : Replays h w (finish' i) d) :
    Replays h w (.forEach i source body finish') d := by
  intro w' hw r s D Δ v hs q hq'
  cases hq' with
  | forEach hsource _ hfinish =>
    obtain ⟨r', t, hd, hpassage, hs'⟩ := hp.finish hw hs false hsource
    have halike := (hfinish i).mono (Realm.ties_mono hpassage.le v)
    exact (hq w' hw r' t D Δ v hs' _ halike).onward hpassage (.forEach_finish hd)

theorem forEach_failed (hp : Replays h w source (.failed e)) :
    Replays h w (.forEach i source body finish') (.failed e) := by
  intro w' hw r s D Δ v hs q hq
  cases hq with
  | forEach hsource _ _ => exact hp.failed hw hs false hsource fun _ => .forEach_failed

theorem ask {x : Query} {a : x.Answer} {k : x.Answer → Producer} (ha : h.answer x = .ok a)
    (hq : Replays h w (k a) d) : Replays h w (.ask x k) d := by
  intro w' hw r s D Δ v hs q hq'
  cases hq' with
  | ask hk => exact .step hs rfl (fun hs => hq w' hw r s D Δ v hs _ (hk a)) (.ask ha)

theorem ask_failed {x : Query} {k : x.Answer → Producer} (he : h.answer x = .error e) :
    Replays h w (.ask x k) (.failed e) := by
  intro w' _ r s D Δ v hs q hq
  cases hq with
  | ask hk => exact .here hs (.ask_failed he) .failed

theorem fetch_listed {vs : List Value} {k : Option Value → Producer}
    (hq : Replays h w (k vs[i]?) d) : Replays h w (.fetch (.listed vs) i k) d := by
  intro w' hw r s D Δ v hs q hq'
  cases hq' with
  | fetch hshared hk =>
    cases hshared with
    | known hshared =>
      cases hshared with
      | @listed vs' _ hl hv =>
        have hi := (Shared.alike_listed.1 (.listed hl hv)).getElem? i
        have hcomes := hq w' hw r s D Δ v hs _ (hk _ le_rfl _ _ hi)
        refine .step hs rfl (fun _ => hcomes) ?_
        cases hx : vs'[i]? with
        | some u =>
          have hlook : s.look (.listed vs') i = .item u := by simp [Session.look, hx]
          exact fun {_ _} hd => .fetch_item hlook hd
        | none =>
          have hlook : s.look (.listed vs') i = .finish := by simp [Session.look, hx]
          exact fun {_ _} hd => .fetch_finish hlook hd

theorem fetch {n : Nat} {x : Option Value} {k : Option Value → Producer}
    (hshows : w.Shows h n i (.ok x)) (hq : Replays h w (k x) d) :
    Replays h w (.fetch (.cell n) i k) d := by
  intro w' hw r s D Δ v hs q hq'
  cases hq' with
  | fetch hshared hk =>
    obtain ⟨a, rfl, ha⟩ := Realm.reads_of_readable hshared
    refine hs.fetch ha (hshows.mono hw) fun r' t hr hs' y hy => ?_
    exact hq w' hw r' t D Δ v hs' _ (hk _ (Realm.ties_mono hr v) _ _ hy)

theorem fetch_failed {n : Nat} {k : Option Value → Producer} (hshows : w.Shows h n i (.error e)) :
    Replays h w (.fetch (.cell n) i k) (.failed e) := by
  intro w' hw r s D Δ v hs q hq
  cases hq with
  | fetch hshared hk =>
    obtain ⟨a, rfl, ha⟩ := Realm.reads_of_readable hshared
    exact hs.fetch ha (hshows.mono hw) rfl

theorem length_listed {vs : List Value} {k : Option Nat → Producer}
    (hq : Replays h w (k (some vs.length)) d) : Replays h w (.length (.listed vs) k) d := by
  intro w' hw r s D Δ v hs q hq'
  cases hq' with
  | last hm =>
    cases hm with
    | listed hvs =>
      refine .step hs rfl (fun hs => hq w' hw r s D Δ v hs _ ?_) .length
      rw [Session.length?, hvs.length_eq]
      exact (Producer.Like.atomic _).alike

/-- The length of a focus sequence is found by draining it, or it is known and is the same. -/
theorem length {n : Nat} {k : Option Nat → Producer} (hq : Replays h w (k none) d) :
    Replays h w (.length (.cell n) k) d := by
  intro w' hw r s D Δ v hs q hq'
  cases hq' with
  | last hm =>
    cases hm with
    | @cell a _ hm =>
      have hslow := hq w' hw r s D Δ v hs _ (Scope.Measurable.drain hm)
      cases hl : s.length? (.cell a) with
      | none => exact .step hs rfl (fun _ => hslow) fun hd => .length (by rw [hl]; exact hd)
      | some m =>
        obtain ⟨items, hcell, rfl⟩ := hs.ready.length_eq_some hm hl
        obtain ⟨d', r', t, hd, halike, hagrees, hpassage⟩ := hslow
        have hyields : Yields h (.reader (.cell a)) s items.toList none s := .read hcell
        rcases hd.of_drain with ⟨vs, u, hy, hd⟩ | ⟨vs, e, hy, -⟩
        · obtain ⟨rfl, -, rfl⟩ := hyields.unique hy
          refine ⟨d', r', t, .length ?_, halike, hagrees, hpassage⟩
          rw [Session.length?, hcell]
          exact hd
        · cases (hyields.unique hy).2.1

theorem share {n : Nat} {x : Past} {k : Shared → Producer} (hx : w.past n = some x)
    (hfirst : x.first = ⟨#[], some source, none⟩) (hq : Replays h w (k (.cell n)) d) :
    Replays h w (.share source k) d := by
  intro w' hw r s D Δ v hs q hq'
  obtain ⟨y, hy, hfirst', -⟩ := hw n x hx
  rw [hfirst] at hfirst'
  cases hq' with
  | share hp hk =>
    have hnone : none ≠ some Agent.host := nofun
    obtain ⟨r', hs', hpassage, hsees, howner⟩ := hs.allocate hy hfirst' hp hnone
    have hknown : (r'.scope v) .known s.cells.size n := ⟨hsees, by simp [howner]⟩
    have halike := hk _ (Realm.ties_mono hpassage.le v) _ _ hknown
    exact (hq w' hw r' _ D Δ v hs' _ halike).onward hpassage .share
  | shareFocus hp hk =>
    have hhost : some v.agent ≠ some .host := fun h => hs.ready.agent (Option.some.inj h)
    obtain ⟨r', hs', hpassage, hsees, howner⟩ := hs.allocate hy hfirst' hp hhost
    have hmeasured : (r'.scope v.inside) .measured s.cells.size n :=
      ⟨hsees.inside, v.agent, Set.mem_insert .., howner⟩
    have halike := hk _ (Realm.ties_mono hpassage.le v) _ _ ⟨hsees, howner⟩ hmeasured
    exact (hq w' hw r' _ D Δ v hs' _ halike).onward hpassage .share

theorem apply {f : Function} {c : CallContext} {ps : List Producer} {result : Producer}
    {k : Shared → Producer} (hf : f.invoke c ps = .ok result)
    (hq : Replays h w (.share result k) d) : Replays h w (.apply f c ps k) d := by
  intro w' hw r s D Δ v hs q hq'
  cases hq' with
  | apply hf' hc hl hps hk =>
    have hps' := List.forall₂_iff_zip.2 ⟨hl, fun h => hps h⟩
    have hinvoke := Function.invoke_like (β := (r.ties v).scope) hc hps' hf'
    rw [hf] at hinvoke
    generalize hx : Function.invoke _ _ _ = x at hinvoke
    cases hinvoke with
    | ok hresult =>
      exact .step hs rfl (fun hs => hq w' hw r s D Δ v hs _ (.share hresult hk)) (.apply hx)

theorem apply_failed {f : Function} {c : CallContext} {ps : List Producer} {k : Shared → Producer}
    (hf : f.invoke c ps = .error e) : Replays h w (.apply f c ps k) (.failed e) := by
  intro w' _ r s D Δ v hs q hq
  cases hq with
  | apply hf' hc hl hps hk =>
    have hps' := List.forall₂_iff_zip.2 ⟨hl, fun h => hps h⟩
    have hinvoke := Function.invoke_like (β := (r.ties v).scope) hc hps' hf'
    rw [hf] at hinvoke
    generalize hx : Function.invoke _ _ _ = x at hinvoke
    cases hinvoke with
    | error => exact .here hs (.apply_failed hx) .failed

theorem call {c : Call} (hq : Replays h w c.body d) : Replays h w (.call c) d := by
  intro w' hw r s D Δ v hs q hq'
  cases hq' with
  | call hc => exact .step hs rfl (fun hs => hq w' hw r s D Δ v hs _ hc.body) .call

theorem log {label items : String} (hq : Replays h w p d) : Replays h w (.log label items p) d := by
  intro w' hw r s D Δ v hs q hq'
  cases hq' with
  | log hp =>
    exact .step (t := s.report label items) hs rfl (fun hs => hq w' hw r _ D Δ v hs _ hp) .log

theorem pause (hq : Replays h w p d) : Replays h w (.pause p) d := by
  intro w' hw r s D Δ v hs q hq'
  cases hq' with
  | pause hp => exact .step hs rfl (fun hs => hq w' hw r s D Δ v hs _ hp) .pause

theorem tick (hq : Replays h w p d) : Replays h w (.tick p) d := by
  intro w' hw r s D Δ v hs q hq'
  cases hq' with
  | tick hp => exact .step (t := s.tick) hs rfl (fun hs => hq w' hw r _ D Δ v hs _ hp) .tick

end Replays

/-! ## Retelling -/

/-- The draw that a producer comes to by what is known in a world. -/
inductive Retells (h : Host) (w : World) : Producer → Draw → Prop
  | done : Retells h w .done .finish
  | fail {e} : Retells h w (.fail e) (.failed e)
  | emit {v rest} : Retells h w (.emit v rest) (.item v rest)
  | append_item {first second first' v} :
      Retells h w first (.item v first') →
      Retells h w (.append first second) (.item v (.append first' second))
  | append_finish {first second d} :
      Retells h w first .finish → Retells h w (second ()) d → Retells h w (.append first second) d
  | append_failed {first second e} :
      Retells h w first (.failed e) → Retells h w (.append first second) (.failed e)
  | ask {q k a d} : h.answer q = .ok a → Retells h w (k a) d → Retells h w (.ask q k) d
  | ask_failed {q k e} : h.answer q = .error e → Retells h w (.ask q k) (.failed e)
  | fetch_listed {vs i k d} : Retells h w (k vs[i]?) d → Retells h w (.fetch (.listed vs) i k) d
  | fetch {n i x k d} :
      w.Shows h n i (.ok x) → Retells h w (k x) d → Retells h w (.fetch (.cell n) i k) d
  | fetch_failed {n i e k} :
      w.Shows h n i (.error e) → Retells h w (.fetch (.cell n) i k) (.failed e)
  | length_listed {vs k d} :
      Retells h w (k (some vs.length)) d → Retells h w (.length (.listed vs) k) d
  | length {n k d} : Retells h w (k none) d → Retells h w (.length (.cell n) k) d
  | share {n x source k d} :
      w.past n = some x → x.first = ⟨#[], some source, none⟩ → Retells h w (k (.cell n)) d →
      Retells h w (.share source k) d
  | gather_more {step i kept kept' source source' k v d} :
      Retells h w source (.item v source') → step i kept v = .more kept' →
      Retells h w (.gather step (i + 1) kept' source' k) d →
      Retells h w (.gather step i kept source k) d
  | gather_enough {step i kept kept' source source' k v d} :
      Retells h w source (.item v source') → step i kept v = .enough kept' →
      Retells h w (k kept') d → Retells h w (.gather step i kept source k) d
  | gather_fail {step i kept source source' k v e} :
      Retells h w source (.item v source') → step i kept v = .fail e →
      Retells h w (.gather step i kept source k) (.failed e)
  | gather_finish {step i kept source k d} :
      Retells h w source .finish → Retells h w (k kept) d →
      Retells h w (.gather step i kept source k) d
  | gather_failed {step i kept source k e} :
      Retells h w source (.failed e) → Retells h w (.gather step i kept source k) (.failed e)
  | forEach_item {i source source' body finish v d} :
      Retells h w source (.item v source') →
      Retells h w (.append (body i v) fun _ => .forEach (i + 1) source' body finish) d →
      Retells h w (.forEach i source body finish) d
  | forEach_finish {i source body finish d} :
      Retells h w source .finish → Retells h w (finish i) d →
      Retells h w (.forEach i source body finish) d
  | forEach_failed {i source body finish e} :
      Retells h w source (.failed e) → Retells h w (.forEach i source body finish) (.failed e)
  | apply {f c arguments result k d} :
      Function.invoke f c arguments = .ok result → Retells h w (.share result k) d →
      Retells h w (.apply f c arguments k) d
  | apply_failed {f c arguments k e} :
      Function.invoke f c arguments = .error e → Retells h w (.apply f c arguments k) (.failed e)
  | call {c d} : Retells h w (Call.body c) d → Retells h w (.call c) d
  | log {label items rest d} : Retells h w rest d → Retells h w (.log label items rest) d
  | pause {rest d} : Retells h w rest d → Retells h w (.pause rest) d
  | tick {rest d} : Retells h w rest d → Retells h w (.tick rest) d

variable {p q : Producer} {d : Draw}

/-- What is known in a world is known in a later one. -/
theorem Retells.mono (hw : w ≤ w') (hp : Retells h w p d) : Retells h w' p d := by
  induction hp with
  | fetch hshows _ ih => exact .fetch (hshows.mono hw) ih
  | fetch_failed hshows => exact .fetch_failed (hshows.mono hw)
  | share hx hfirst _ ih =>
    obtain ⟨y, hy, hfirst', -⟩ := hw _ _ hx
    exact .share hy (hfirst'.trans hfirst) ih
  | _ => grind [Retells]

/-- A cell with nothing left to compute is drained of its items. -/
theorem Retells.drain {n : Nat} {items : Array Value} {next : List Value → Producer}
    (hshows : ∀ i, w.Shows h n i (.ok items[i]?)) (hd : Retells h w (next items.toList) d) :
    Retells h w (drain (reader (.cell n)) next) d := by
  suffices ∀ vs j i kept, items.toList.drop i = vs → kept.reverse ++ vs = items.toList →
      Retells h w (gather (fun _ kept v => .more (v :: kept)) j kept (.call (.read n i)) fun kept =>
        next kept.reverse) d from this _ 0 0 [] rfl rfl
  intro vs
  induction vs with
  | nil =>
    intro j i kept hi hkept
    have hnone : items[i]? = none := by
      rw [← Array.getElem?_toList, ← List.head?_drop, hi, List.head?_nil]
    rw [List.append_nil] at hkept
    refine .gather_finish (.call (.fetch (hnone ▸ hshows i) .done)) ?_
    rwa [hkept]
  | cons u vs ih =>
    intro j i kept hi hkept
    have hsome : items[i]? = some u := by
      rw [← Array.getElem?_toList, ← List.head?_drop, hi, List.head?_cons]
    have htail : items.toList.drop (i + 1) = vs := by rw [← List.tail_drop, hi, List.tail_cons]
    refine .gather_more (.call (.fetch (hsome ▸ hshows i) .emit)) rfl ?_
    exact ih (j + 1) (i + 1) (u :: kept) htail (by rw [← hkept]; simp)

/-- A draw that is retold can be replayed. -/
theorem Retells.replays (hp : Retells h w p d) : Replays h w p d := by
  induction hp with
  | done =>
    intro w' _ r s D Δ v hs q hq
    cases hq
    exact .here hs .done .finish
  | fail =>
    intro w' _ r s D Δ v hs q hq
    cases hq
    exact .here hs .fail .failed
  | emit =>
    intro w' _ r s D Δ v hs q hq
    cases hq with
    | emit hv hp => exact .here hs .emit (.item hv hp)
  | append_item _ ih => exact ih.append_item
  | append_finish _ _ ih ih' => exact ih.append_finish ih'
  | append_failed _ ih => exact ih.append_failed
  | ask ha _ ih => exact .ask ha ih
  | ask_failed he => exact .ask_failed he
  | fetch_listed _ ih => exact .fetch_listed ih
  | fetch hshows _ ih => exact .fetch hshows ih
  | fetch_failed hshows => exact .fetch_failed hshows
  | length_listed _ ih => exact .length_listed ih
  | length _ ih => exact .length ih
  | share hx hfirst _ ih => exact .share hx hfirst ih
  | gather_more _ hstep _ ih ih' => exact ih.gather_more hstep ih'
  | gather_enough _ hstep _ ih ih' => exact ih.gather_enough hstep ih'
  | gather_fail _ hstep ih => exact ih.gather_fail hstep
  | gather_finish _ _ ih ih' => exact ih.gather_finish ih'
  | gather_failed _ ih => exact ih.gather_failed
  | forEach_item _ _ ih ih' => exact ih.forEach_item ih'
  | forEach_finish _ _ ih ih' => exact ih.forEach_finish ih'
  | forEach_failed _ ih => exact ih.forEach_failed
  | apply hf _ ih => exact .apply hf ih
  | apply_failed hf => exact .apply_failed hf
  | call _ ih => exact ih.call
  | log _ ih => exact ih.log
  | pause _ ih => exact ih.pause
  | tick _ ih => exact ih.tick

end XPath
