import XPath.Expr.Delivery
import XPath.Proofs.Lazy.Settling

/-!
# Reading to the end

Two hosts that answer alike have the same producers yield the same items (`Producer.Draws.congr`),
so what is read of a value over one of them is read of it over the other as well, however often
either suspends.
-/

namespace XPath

namespace Producer

variable {h h' : Host} {p : Producer} {s t : Session}

/-- Drawing depends on what the host answers alone. -/
theorem Draws.congr {d : Draw} (hh : h.answer = h'.answer) (hd : Draws h p s d t) :
    Draws h' p s d t := by
  induction hd with
  | ask ha _ ih => exact .ask (hh ▸ ha) ih
  | ask_failed ha => exact .ask_failed (hh ▸ ha)
  | _ => grind [Draws]

theorem Yields.congr {vs : List Value} {e : Option Error} (hh : h.answer = h'.answer)
    (hy : Yields h p s vs e t) : Yields h' p s vs e t := by
  induction hy with
  | finish hd => exact .finish (hd.congr hh)
  | failed hd => exact .failed (hd.congr hh)
  | item hd _ ih => exact .item (hd.congr hh) ih

end Producer

namespace Snapshot

variable {α β : Type} {h h' : Host}

/-- A way of taking a thing of one kind to one of another in a session. -/
abbrev Taker (α β : Type) := α → Session → Option (β × Session)

/-- With fuel enough the thing is taken to the other one, from every session that differs only in what it
notes of the host. -/
def Comes (take : Nat → Taker α β) (a : α) (s : Session) (b : β) (t : Session) : Prop :=
  ∀ u, u.calm = s → ∃ enough w, w.calm = t ∧ ∀ fuel, enough ≤ fuel → take fuel a u = some (b, w)

namespace Comes

variable {take : Nat → Taker α β} {a : α} {b : β} {l : List α} {bs : List β} {s t u : Session}

theorem nil : Comes (fun fuel => eachOf (take fuel)) [] s [] s := fun u hu => ⟨0, u, hu, fun _ _ => rfl⟩

theorem cons (ha : Comes take a s b t) (hl : Comes (fun fuel => eachOf (take fuel)) l t bs u) :
    Comes (fun fuel => eachOf (take fuel)) (a :: l) s (b :: bs) u := by
  intro v hv
  obtain ⟨n, w, hw, htake⟩ := ha v hv
  obtain ⟨n', w', hw', htakes⟩ := hl w hw
  refine ⟨max n n', w', hw', fun fuel hle => ?_⟩
  have hle := Nat.max_le.1 hle
  simp [eachOf, htake fuel hle.1, htakes fuel hle.2]

theorem entry {take : Nat → Taker Shared (Except Error (List Snapshot))} {shared : Shared}
    {items : Except Error (List Snapshot)} (hs : Comes take shared s items t) (key : Atomic) :
    Comes (fun fuel => entry (take fuel)) (key, shared) s (key, items) t := by
  intro v hv
  obtain ⟨n, w, hw, htake⟩ := hs v hv
  exact ⟨n, w, hw, fun fuel hle => by simp [Snapshot.entry, htake fuel hle]⟩

/-- The items that a producer yields are taken. -/
theorem drained {take : Nat → Taker Value Snapshot} {p : Producer} {vs : List Value}
    {snapshots : List Snapshot} (hy : Producer.Yields h p s vs none t)
    (hvs : Comes (fun fuel => eachOf (take fuel)) vs t snapshots u) :
    Comes (fun fuel => drained h fuel (take fuel)) p s (.ok snapshots) u := by
  intro v hv
  obtain ⟨n, w, hw, hm⟩ := hy.materialize [] hv
  obtain ⟨n', w', hw', htakes⟩ := hvs w hw
  refine ⟨max n n', w', hw', fun fuel hle => ?_⟩
  have hle := Nat.max_le.1 hle
  simp [Snapshot.drained, Producer.materialize_le hle.1 hm, Producer.ended, htakes fuel hle.2]

/-- The error that ends a producer stands for its items. -/
theorem drained_error {take : Nat → Taker Value Snapshot} {p : Producer} {vs : List Value} {e : Error}
    (hy : Producer.Yields h p s vs (some e) t) :
    Comes (fun fuel => Snapshot.drained h fuel (take fuel)) p s (.error e) t := by
  intro v hv
  obtain ⟨n, w, hw, hm⟩ := hy.materialize [] hv
  refine ⟨n, w, hw, fun fuel hle => ?_⟩
  simp [Snapshot.drained, Producer.materialize_le hle hm, Producer.ended]

/-- A value takes one more step than what it refers to. -/
theorem ofValue_succ {v : Value} {x : Snapshot}
    (hv : Comes (fun fuel => ofValue h (fuel + 1)) v s x t) : Comes (ofValue h) v s x t := by
  intro u hu
  obtain ⟨n, w, hw, htake⟩ := hv u hu
  refine ⟨n + 1, w, hw, fun fuel hle => ?_⟩
  obtain ⟨fuel, rfl⟩ := Nat.exists_eq_add_of_le' (Nat.le_of_add_left_le hle)
  exact htake fuel (Nat.le_of_succ_le_succ hle)

theorem atomic (a : Atomic) : Comes (ofValue h) (.atomic a) s (.atomic a) s :=
  ofValue_succ fun u hu => ⟨0, u, hu, fun _ _ => rfl⟩

theorem node (n : Node) : Comes (ofValue h) (.node n) s (.node n) s :=
  ofValue_succ fun u hu => ⟨0, u, hu, fun _ _ => rfl⟩

theorem function (f : Function) : Comes (ofValue h) (.function f) s (.function f) s :=
  ofValue_succ fun u hu => ⟨0, u, hu, fun _ _ => rfl⟩

theorem array {members : List Shared} {taken : List (Except Error (List Snapshot))}
    (hm : Comes (fun fuel => eachOf fun shared => Snapshot.drained h fuel (ofValue h fuel) (.reader shared))
      members s taken t) : Comes (ofValue h) (.array members) s (.array taken) t := by
  refine ofValue_succ fun u hu => ?_
  obtain ⟨n, w, hw, htake⟩ := hm u hu
  exact ⟨n, w, hw, fun fuel hle => by simp [ofValue, htake fuel hle]⟩

theorem map {entries : Entries} {taken : List (Atomic × Except Error (List Snapshot))}
    (hm : Comes (fun fuel => eachOf (Snapshot.entry fun shared =>
      Snapshot.drained h fuel (ofValue h fuel) (.reader shared))) entries s taken t) :
    Comes (ofValue h) (.map entries) s (.map taken) t := by
  refine ofValue_succ fun u hu => ?_
  obtain ⟨n, w, hw, htake⟩ := hm u hu
  exact ⟨n, w, hw, fun fuel hle => by simp [ofValue, htake fuel hle]⟩

end Comes

/-- With fuel enough, one taker takes all that another one does, to the same, from a session that
differs in what it notes of the host. -/
def Follows (take : Taker α β) (take' : Nat → Taker α β) : Prop :=
  ∀ a s b t, take a s = some (b, t) → ∀ u, u.calm = s.calm →
    ∃ enough w, w.calm = t.calm ∧ ∀ fuel, enough ≤ fuel → take' fuel a u = some (b, w)

theorem Follows.eachOf {take : Taker α β} {take' : Nat → Taker α β} (hf : Follows take take') :
    Follows (eachOf take) (fun fuel => eachOf (take' fuel)) := by
  intro l
  induction l with
  | nil =>
    rintro s b t hr
    cases hr
    exact Comes.nil
  | cons a l ih =>
    intro s b t hr
    simp only [Snapshot.eachOf, Option.bind_eq_bind, Option.bind_eq_some_iff] at hr
    obtain ⟨⟨x, t⟩, hx, ⟨xs, t'⟩, hxs, hr⟩ := hr
    cases hr
    exact Comes.cons (hf _ _ _ _ hx) (ih _ _ _ hxs)

theorem Follows.entry {take : Taker Shared (Except Error (List Snapshot))}
    {take' : Nat → Taker Shared (Except Error (List Snapshot))} (hf : Follows take take') :
    Follows (entry take) (fun fuel => entry (take' fuel)) := by
  intro ⟨key, shared⟩ s b t hr
  simp only [Snapshot.entry, Option.bind_eq_bind, Option.bind_eq_some_iff] at hr
  obtain ⟨⟨x, t⟩, hx, hr⟩ := hr
  cases hr
  exact Comes.entry (hf _ _ _ _ hx) key

theorem Follows.drained {take : Taker Value Snapshot} {take' : Nat → Taker Value Snapshot}
    (hh : h.answer = h'.answer) (hf : Follows take take') (fuel : Nat) :
    Follows (drained h fuel take) fun fuel => drained h' fuel (take' fuel) := by
  intro p s b t hr
  simp only [Snapshot.drained, Option.bind_eq_bind, Option.bind_eq_some_iff] at hr
  obtain ⟨⟨items, t⟩, hm, hr⟩ := hr
  obtain ⟨vs, e, hy, hitems⟩ := Producer.materialize_sound hm
  have hy := hy.congr hh
  cases e with
  | some e =>
    cases hitems
    cases hr
    exact Comes.drained_error hy
  | none =>
    rw [Producer.ended] at hitems
    subst hitems
    simp only [Option.bind_eq_some_iff] at hr
    obtain ⟨⟨taken, t⟩, hx, hr⟩ := hr
    cases hr
    exact Comes.drained hy (hf.eachOf _ _ _ _ hx)

/-- What is read of a value over one host is read of it over the other. -/
theorem ofValue_follows (hh : h.answer = h'.answer) (fuel : Nat) :
    Follows (ofValue h fuel) (ofValue h') := by
  induction fuel with
  | zero => exact fun _ _ _ _ hr => nomatch hr
  | succ fuel ih =>
    have member : Follows (fun shared => Snapshot.drained h fuel (ofValue h fuel) (.reader shared))
        fun fuel shared => Snapshot.drained h' fuel (ofValue h' fuel) (.reader shared) :=
      fun shared => ih.drained hh fuel (.reader shared)
    intro v s b t hr
    cases v with
    | atomic a =>
      cases hr
      exact Comes.atomic a
    | node n =>
      cases hr
      exact Comes.node n
    | function f =>
      cases hr
      exact Comes.function f
    | array members =>
      simp only [ofValue, Option.bind_eq_bind, Option.bind_eq_some_iff] at hr
      obtain ⟨⟨taken, t⟩, hx, hr⟩ := hr
      cases hr
      exact Comes.array (member.eachOf _ _ _ _ hx)
    | map entries =>
      simp only [ofValue, Option.bind_eq_bind, Option.bind_eq_some_iff] at hr
      obtain ⟨⟨taken, t⟩, hx, hr⟩ := hr
      cases hr
      exact Comes.map (member.entry.eachOf _ _ _ _ hx)

end Snapshot

end XPath
