import XPath.Proofs.Lazy.Compounds
import XPath.Proofs.Lazy.Mimicry

/-!
# Reading nested arrays

Reading the items of a producer depth first goes through the members of an array as soon as it comes to
it, before it goes on behind the array (`Producer.Unnests`). A flattening under way keeps a stack of what
is still to be read (`Producer.Flattening`), and what it comes to is what reading that stack comes to. So
flattening yields what is read depth first, and nothing else (`Producer.yields_flatten`), and as none of
it is an array, flattening once more changes nothing (`Producer.flatten_mimics`).
-/

namespace XPath

/-- Any item but an array. -/
def Value.isLeaf : Value → Bool
  | .array _ => false
  | _ => true

theorem flattened_of_isLeaf {v : Value} (hv : v.isLeaf) : flattened v = .singleton v := by
  cases v with
  | array => cases hv
  | _ => rfl

namespace Producer

/-! ## Depth first -/

/-- The items of a producer and of the members of the arrays among them, depth first, up to the end or
the first error. -/
inductive Unnests (h : Host) : Producer → Session → List Value → Option Error → Session → Prop
  | finish {p s t} : Draws h p s .finish t → Unnests h p s [] none t
  | failed {p e s t} : Draws h p s (.failed e) t → Unnests h p s [] (some e) t
  | leaf {p v q s t vs e u} :
      Draws h p s (.item v q) t → v.isLeaf → Unnests h q t vs e u → Unnests h p s (v :: vs) e u
  | array {p members q s t vs u ws e w} :
      Draws h p s (.item (.array members) q) t → Unnests h (readers members) t vs none u →
      Unnests h q u ws e w → Unnests h p s (vs ++ ws) e w
  | inside {p members q s t vs e u} :
      Draws h p s (.item (.array members) q) t → Unnests h (readers members) t vs (some e) u →
      Unnests h p s vs (some e) u

/-- Several producers read depth first, one after the other. -/
inductive UnnestsAll (h : Host) : List Producer → Session → List Value → Option Error → Session → Prop
  | nil {s} : UnnestsAll h [] s [] none s
  | cons {p ps s vs t ws e u} :
      Unnests h p s vs none t → UnnestsAll h ps t ws e u → UnnestsAll h (p :: ps) s (vs ++ ws) e u
  | failed {p ps s vs e t} :
      Unnests h p s vs (some e) t → UnnestsAll h (p :: ps) s vs (some e) t

/-- A flattening under way, with what is still to be read, the innermost first. -/
inductive Flattening : Producer → List Producer → Prop
  | each {i p} : Flattening (forEach i p (fun _ v => flattened v) fun _ => .done) [p]
  | leaves {members} : Flattening (.call (.leaves members)) [readers members]
  | leaf {v} : v.isLeaf → Flattening (singleton v) [singleton v]
  | done : Flattening .done []
  | append {p ps k qs} :
      Flattening p ps → (∀ u, Flattening (k u) qs) → Flattening (append p k) (ps ++ qs)

variable {h : Host} {p q : Producer} {ps qs rs : List Producer} {s t u : Session} {d : Draw}
  {v : Value} {vs ws : List Value} {e : Option Error}

theorem Unnests.isLeaf (hp : Unnests h p s vs e t) : ∀ v ∈ vs, v.isLeaf := by
  induction hp with
  | finish | failed => nofun
  | leaf _ hv _ ih => exact List.forall_mem_cons.2 ⟨hv, ih⟩
  | array _ _ _ ihmembers ih => exact fun v hv => (List.mem_append.1 hv).elim (ihmembers v) (ih v)
  | inside _ _ ih => exact ih

/-- Flattening gives what is read depth first. -/
theorem Unnests.flatten (hp : Unnests h p s vs e t) : Yields h (flatten p) s vs e t := by
  suffices ∀ i, Yields h (forEach i p (fun _ v => flattened v) fun _ => .done) s vs e t from this 0
  induction hp with
  | finish hd => exact fun i => .finish (.forEach_finish hd .done)
  | failed hd => exact fun i => .failed (.forEach_failed hd)
  | leaf hd hv _ ih =>
    intro i
    refine .item (.forEach_item hd (.append_item ?_))
      ((ih (i + 1)).imp fun _ _ => .append_finish .done)
    rw [flattened_of_isLeaf hv]
    exact .emit
  | array hd _ _ ihmembers ih =>
    intro i
    have hmembers : Yields h (.call (.leaves _)) _ _ none _ := (ihmembers 0).imp fun _ _ => .call
    exact (hmembers.append (ih (i + 1))).imp fun _ _ => .forEach_item hd
  | inside hd _ ih =>
    intro i
    have hmembers : Yields h (.call (.leaves _)) _ _ (some _) _ := (ih 0).imp fun _ _ => .call
    exact hmembers.append_failed.imp fun _ _ => .forEach_item hd

/-! ## Flattenings under way -/

theorem UnnestsAll.append (hp : UnnestsAll h ps s vs none t) (hq : UnnestsAll h qs t ws e u) :
    UnnestsAll h (ps ++ qs) s (vs ++ ws) e u := by
  generalize he : (none : Option Error) = e' at hp
  induction hp with
  | nil => exact hq
  | cons hp _ ih =>
    rw [List.append_assoc]
    exact .cons hp (ih hq he)
  | failed => cases he

theorem UnnestsAll.append_failed {e : Error} (hp : UnnestsAll h ps s vs (some e) t) :
    UnnestsAll h (ps ++ qs) s vs (some e) t := by
  generalize he : some e = e' at hp
  induction hp with
  | nil => cases he
  | cons hp _ ih => exact .cons hp (ih he)
  | failed hp => exact .failed hp

/-- Either the first producers are read to their end and then the others, or there is an error before. -/
theorem UnnestsAll.of_append (hp : UnnestsAll h (ps ++ qs) s vs e u) :
    (∃ us ws t, vs = us ++ ws ∧ UnnestsAll h ps s us none t ∧ UnnestsAll h qs t ws e u) ∨
      ∃ e', e = some e' ∧ UnnestsAll h ps s vs e u := by
  induction ps generalizing s vs with
  | nil => exact .inl ⟨[], vs, s, rfl, .nil, hp⟩
  | cons p ps ih =>
    cases hp with
    | failed hp => exact .inr ⟨_, rfl, .failed hp⟩
    | cons hp hps =>
      rcases ih hps with ⟨us, ws, t, rfl, hps, hqs⟩ | ⟨e', rfl, hps⟩
      · exact .inl ⟨_, ws, t, (List.append_assoc ..).symm, .cons hp hps, hqs⟩
      · exact .inr ⟨e', rfl, .cons hp hps⟩

/-- What drawing from a flattening means to what was to be read before. -/
def Advances (h : Host) (ps : List Producer) (s : Session) (d : Draw) (t : Session) : Prop :=
  match d with
  | .item v q => v.isLeaf ∧ ∃ qs, Flattening q qs ∧
      ∀ vs e u, UnnestsAll h qs t vs e u → UnnestsAll h ps s (v :: vs) e u
  | .finish => UnnestsAll h ps s [] none t
  | .failed e => UnnestsAll h ps s [] (some e) t

theorem Advances.imp (hd : Advances h qs t d u)
    (hq : ∀ vs e w, UnnestsAll h qs t vs e w → UnnestsAll h ps s vs e w) : Advances h ps s d u := by
  cases d with
  | finish | failed => exact hq _ _ _ hd
  | item v q =>
    obtain ⟨hv, rs, hrs, hnext⟩ := hd
    exact ⟨hv, rs, hrs, fun vs e w hw => hq _ _ _ (hnext vs e w hw)⟩

/-- What follows what has been read to its end comes after it. -/
theorem Advances.after (hp : UnnestsAll h ps s [] none t) (hd : Advances h qs t d u) :
    Advances h (ps ++ qs) s d u :=
  hd.imp fun vs _ _ hq => by simpa using hp.append hq

theorem Advances.before (hd : Advances h ps s d t) (hfinish : d ≠ .finish) {k : Unit → Producer}
    (hk : ∀ u, Flattening (k u) qs) :
    Advances h (ps ++ qs) s (match d with | .item v p => .item v (p.append k) | d => d) t := by
  cases d with
  | finish => exact absurd rfl hfinish
  | failed e => exact hd.append_failed
  | item v p =>
    obtain ⟨hv, rs, hrs, hnext⟩ := hd
    refine ⟨hv, rs ++ qs, hrs.append hk, fun vs e u hall => ?_⟩
    rcases hall.of_append with ⟨us, ws, w, rfl, hus, hws⟩ | ⟨e', rfl, hus⟩
    · exact (hnext us none w hus).append hws
    · exact (hnext vs _ u hus).append_failed

theorem unnestsAll_singleton : UnnestsAll h [p] s vs e t ↔ Unnests h p s vs e t := by
  constructor
  · intro hp
    cases hp with
    | failed hp => exact hp
    | cons hp hnil =>
      cases hnil
      rwa [List.append_nil]
  · intro hp
    cases e with
    | none => simpa using UnnestsAll.cons hp .nil
    | some e => exact .failed hp

theorem unnests_singleton (hv : v.isLeaf) (s : Session) : Unnests h (singleton v) s [v] none s :=
  .leaf .emit hv (.finish .done)

/-- An item that has been drawn is read before the rest. -/
theorem unnestsAll_of_item (hd : Draws h p s (.item v q) t) :
    ∃ r, Flattening (flattened v) [r] ∧
      ∀ vs e u, UnnestsAll h [r, q] t vs e u → UnnestsAll h [p] s vs e u := by
  by_cases hv : v.isLeaf
  · refine ⟨singleton v, flattened_of_isLeaf hv ▸ .leaf hv, fun vs e u hall => ?_⟩
    cases hall with
    | failed hr => cases (hr.flatten.unique (unnests_singleton hv t).flatten).2.1
    | cons hr hq =>
      obtain ⟨rfl, -, rfl⟩ := hr.flatten.unique (unnests_singleton hv t).flatten
      exact unnestsAll_singleton.2 (.leaf hd hv (unnestsAll_singleton.1 hq))
  · obtain ⟨members, rfl⟩ : ∃ members, v = .array members := by
      cases v with
      | array members => exact ⟨members, rfl⟩
      | _ => exact absurd rfl hv
    refine ⟨readers members, .leaves, fun vs e u hall => unnestsAll_singleton.2 ?_⟩
    cases hall with
    | failed hr => exact .inside hd hr
    | cons hr hq => exact .array hd hr (unnestsAll_singleton.1 hq)

/-- Drawing from a flattening is reading on, depth first. -/
theorem Flattening.draws (hp : Flattening p ps) (hd : Draws h p s d t) : Advances h ps s d t := by
  induction hd generalizing ps with
  | done => cases hp with
    | done => exact .nil
  | @emit _ _ s => cases hp with
    | leaf hv =>
      refine ⟨hv, [], .done, fun vs e u hnil => ?_⟩
      cases hnil
      exact unnestsAll_singleton.2 (unnests_singleton hv s)
  | append_item _ ih => cases hp with
    | append hp hk => exact (ih hp).before nofun hk
  | append_finish _ _ ih ih' => cases hp with
    | append hp hk => exact .after (ih hp) (ih' (hk ()))
  | append_failed _ ih => cases hp with
    | append hp hk => exact (ih hp).before nofun hk
  | forEach_item hd _ _ ih => cases hp with
    | each =>
      obtain ⟨r, hr, hread⟩ := unnestsAll_of_item hd
      exact (ih (hr.append fun _ => .each)).imp hread
  | forEach_finish hd hdone => cases hp with
    | each =>
      cases hdone
      exact unnestsAll_singleton.2 (.finish hd)
  | forEach_failed hd => cases hp with
    | each => exact .failed (.failed hd)
  | call _ ih => cases hp with
    | leaves => exact ih .each
  | _ => cases hp

theorem Flattening.yields (hp : Flattening p ps) (hy : Yields h p s vs e t) :
    UnnestsAll h ps s vs e t := by
  induction hy generalizing ps with
  | finish hd => exact hp.draws hd
  | failed hd => exact hp.draws hd
  | item hd _ ih =>
    obtain ⟨-, qs, hq, hnext⟩ := hp.draws hd
    exact hnext _ _ _ (ih hq)

/-- Flattening gives what is read depth first, and nothing else. -/
theorem yields_flatten : Yields h (flatten p) s vs e t ↔ Unnests h p s vs e t :=
  ⟨fun hy => unnestsAll_singleton.1 (Flattening.yields .each hy), Unnests.flatten⟩

/-! ## Flattening once more -/

/-- A flattening of something flattened, beside that. -/
inductive Reflattening : Producer → Producer → Prop
  | each {i p ps} : Flattening p ps →
      Reflattening (forEach i p (fun _ v => flattened v) fun _ => .done) p
  | rest {i p ps} : Flattening p ps →
      Reflattening (append .done fun _ => forEach i p (fun _ v => flattened v) fun _ => .done) p

/-- Items of something flattened stay as they are. -/
theorem Flattening.each_draws {i : Nat} (hp : Flattening p ps) :
    (∀ d t, Draws h (forEach i p (fun _ v => flattened v) fun _ => .done) s d t →
      ∃ d', d.Matches Reflattening d' ∧ Draws h p s d' t) ∧
    ∀ d t, Draws h p s d t → ∃ d', d'.Matches Reflattening d ∧
      Draws h (forEach i p (fun _ v => flattened v) fun _ => .done) s d' t := by
  constructor
  · intro d t hd
    cases hd with
    | forEach_item hd hrest =>
      obtain ⟨hv, qs, hq, -⟩ := hp.draws hd
      simp only [flattened_of_isLeaf hv] at hrest
      cases hrest with
      | append_item hv =>
        cases hv
        exact ⟨_, .item (.rest hq), hd⟩
      | append_finish hv => cases hv
      | append_failed hv => cases hv
    | forEach_finish hd hdone =>
      cases hdone
      exact ⟨_, .finish, hd⟩
    | forEach_failed hd => exact ⟨_, .failed, hd⟩
  · intro d t hd
    cases d with
    | finish => exact ⟨_, .finish, .forEach_finish hd .done⟩
    | failed e => exact ⟨_, .failed, .forEach_failed hd⟩
    | item v q =>
      obtain ⟨hv, qs, hq, -⟩ := hp.draws hd
      refine ⟨_, .item (.rest (i := i + 1) hq), .forEach_item hd (.append_item ?_)⟩
      rw [flattened_of_isLeaf hv]
      exact .emit

theorem reflattening_follows : Follows h Reflattening := by
  intro p q hpq s d t hd
  cases hpq with
  | each hq => exact hq.each_draws.1 d t hd
  | rest hq =>
    cases hd with
    | append_item hd => cases hd
    | append_failed hd => cases hd
    | append_finish hdone hd =>
      cases hdone
      exact hq.each_draws.1 d t hd

theorem follows_reflattening : Follows h fun p q => Reflattening q p := by
  intro p q hpq s d t hd
  have swap {d' : Draw} (hm : d'.Matches Reflattening d) : d.Matches (fun p q => Reflattening q p) d' := by
    cases hm with
    | item hr => exact .item hr
    | finish => exact .finish
    | failed => exact .failed
  cases hpq with
  | each hp =>
    obtain ⟨d', hmatch, hd'⟩ := hp.each_draws.2 d t hd
    exact ⟨d', swap hmatch, hd'⟩
  | rest hp =>
    obtain ⟨d', hmatch, hd'⟩ := hp.each_draws.2 d t hd
    exact ⟨d', swap hmatch, .append_finish .done hd'⟩

/-- Flattening once more changes nothing. -/
theorem flatten_mimics (p : Producer) :
    Mimics h (flatten (flatten p)) (flatten p) ∧ Mimics h (flatten p) (flatten (flatten p)) :=
  ⟨⟨_, reflattening_follows, .each .each⟩, _, follows_reflattening, .each .each⟩

end Producer

end XPath
