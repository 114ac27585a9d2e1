import XPath.Proofs.Lazy.Likeness

/-!
# Combinators on like producers

Every combinator makes like producers of like ones: the items that a producer draws, and what it puts
into cells, are handed on without a look at the cells behind them.
-/

/-- Both fail alike, or both give results that the relation holds of. -/
inductive Except.Alike {ε α β : Type} (R : α → β → Prop) : Except ε α → Except ε β → Prop
  | ok {a b} : R a b → Except.Alike R (.ok a) (.ok b)
  | error (e : ε) : Except.Alike R (.error e) (.error e)

namespace Except.Alike

variable {ε α β γ δ : Type} {R : α → β → Prop} {S : γ → δ → Prop} {x : Except ε α} {y : Except ε β}

theorem imp {R' : α → β → Prop} (h : ∀ a b, R a b → R' a b) : Except.Alike R x y → Except.Alike R' x y
  | .ok hab => .ok (h _ _ hab)
  | .error e => .error e

theorem bind {f : α → Except ε γ} {g : β → Except ε δ} (h : Except.Alike R x y)
    (hf : ∀ a b, R a b → Except.Alike S (f a) (g b)) : Except.Alike S (x >>= f) (y >>= g) := by
  cases h with
  | ok hab => exact hf _ _ hab
  | error e => exact .error e

theorem of_eq {x y : Except ε α} (h : x = y) : Except.Alike (fun a b => a = b) x y := by
  subst h
  cases x with
  | ok a => exact .ok rfl
  | error e => exact .error e

theorem mapM {f : α → Except ε γ} {g : β → Except ε δ} {l : List α} {l' : List β}
    (hl : List.Forall₂ R l l') (hf : ∀ a b, R a b → Except.Alike S (f a) (g b)) :
    Except.Alike (List.Forall₂ S) (l.mapM f) (l'.mapM g) := by
  induction hl with
  | nil => exact .ok .nil
  | cons hab _ ih =>
    rw [List.mapM_cons, List.mapM_cons]
    apply (hf _ _ hab).bind
    intro c d hcd
    apply ih.bind
    intro cs ds hcds
    exact .ok (.cons hcd hcds)

end Except.Alike

theorem List.Forall₂.map_eq {α β γ : Type} {R : α → β → Prop} {f : α → γ} {g : β → γ} {l : List α}
    {l' : List β} (hl : List.Forall₂ R l l') (h : ∀ a b, R a b → f a = g b) : l.map f = l'.map g := by
  induction hl with
  | nil => rfl
  | cons hab _ ih => rw [List.map_cons, List.map_cons, h _ _ hab, ih]

theorem List.Forall₂.filterMap_eq {α β γ : Type} {R : α → β → Prop} {f : α → Option γ}
    {g : β → Option γ} {l : List α} {l' : List β} (hl : List.Forall₂ R l l')
    (h : ∀ a b, R a b → f a = g b) : l.filterMap f = l'.filterMap g := by
  induction hl with
  | nil => rfl
  | cons hab _ ih => rw [List.filterMap_cons, List.filterMap_cons, h _ _ hab, ih]

theorem List.Forall₂.any_eq {α β : Type} {R : α → β → Prop} {p : α → Bool} {q : β → Bool} {l : List α}
    {l' : List β} (hl : List.Forall₂ R l l') (h : ∀ a b, R a b → p a = q b) : l.any p = l'.any q := by
  induction hl with
  | nil => rfl
  | cons hab _ ih => rw [List.any_cons, List.any_cons, h _ _ hab, ih]

theorem List.Forall₂.zip {α β γ δ : Type} {R : α → β → Prop} {S : γ → δ → Prop} {l : List α}
    {l' : List β} {m : List γ} {m' : List δ} (hl : List.Forall₂ R l l') (hm : List.Forall₂ S m m') :
    List.Forall₂ (fun x y => R x.1 y.1 ∧ S x.2 y.2) (l.zip m) (l'.zip m') := by
  induction hl generalizing m m' with
  | nil => exact .nil
  | cons hab _ ih =>
    cases hm with
    | nil => exact .nil
    | cons hcd hm => exact .cons ⟨hab, hcd⟩ (ih hm)

namespace XPath

open List Producer

variable {ρ : Matching} {β β' : Scope}

/-! ## Values -/

namespace Value.Alike

variable {v v' : Value} {vs vs' : List Value}

theorem itemType (h : v.Alike ρ v') : v.itemType = v'.itemType := by cases h <;> rfl

theorem typeLabel (h : v.Alike ρ v') : v.typeLabel = v'.typeLabel := by
  rw [Value.typeLabel, Value.typeLabel, h.itemType]

theorem isNode (h : v.Alike ρ v') : v.isNode = v'.isNode := by cases h <;> rfl

theorem node? (h : v.Alike ρ v') : v.node? = v'.node? := by cases h <;> rfl

theorem atomic? (h : v.Alike ρ v') : v.atomic? = v'.atomic? := by cases h <;> rfl

theorem isSameNode (h : v.Alike ρ v') (n : Node) : v.isSameNode n = v'.isSameNode n := by
  cases h <;> rfl

theorem truthOf (h : Forall₂ (Value.Alike ρ) vs vs') : truthOf vs = truthOf vs' := by
  cases h with
  | nil => rfl
  | cons hv hvs =>
    cases hvs with
    | nil => cases hv <;> rfl
    | cons _ _ => cases hv <;> rfl

theorem atomics (h : Forall₂ (Value.Alike ρ) vs vs') :
    vs.filterMap Value.atomic? = vs'.filterMap Value.atomic? := h.filterMap_eq fun _ _ h => h.atomic?

theorem nodes (h : Forall₂ (Value.Alike ρ) vs vs') :
    vs.filterMap Value.node? = vs'.filterMap Value.node? := h.filterMap_eq fun _ _ h => h.node?

theorem self_nodes (ns : List Node) : Forall₂ (Value.Alike ρ) (ns.map .node) (ns.map .node) :=
  forall₂_map_left_iff.2 (forall₂_map_right_iff.2 (forall₂_same.2 fun n _ => .node n))

theorem atomized (h : v.Alike ρ v') : v.atomized = v'.atomized := by
  cases h with
  | atomic | node | array => rfl
  | map hl hk hs => simp only [Value.atomized, noAtomicValue, (Value.Alike.map hl hk hs).typeLabel]
  | function hf => simp only [Value.atomized, noAtomicValue, (Value.Alike.function hf).typeLabel]

theorem callable (h : v.Alike ρ v') : Except.Alike (Function.Alike ρ) v.callable v'.callable := by
  cases h with
  | atomic | node => exact .error _
  | map hl hk hs => exact .ok (.entryOf hl hk hs)
  | array hl hs => exact .ok (.memberOf hl hs)
  | function hf => exact .ok hf

end Value.Alike

theorem Option.Rel.head? {vs vs' : List Value} (h : Forall₂ (Value.Alike ρ) vs vs') :
    Option.Rel (Value.Alike ρ) vs.head? vs'.head? := by
  cases h with
  | nil => exact .none
  | cons hv _ => exact .some hv

/-- The first entry with a key is found in both. -/
theorem Entries.get?_alike {es es' : Entries} (h : Forall₂ (Entries.Like ρ) es es') (key : Atomic) :
    Option.Rel (Shared.Alike ρ) (es.get? key) (es'.get? key) := by
  induction h with
  | nil => exact .none
  | @cons x y _ _ hxy _ ih =>
    simp only [Entries.get?, List.find?_cons, hxy.1] at ih ⊢
    split
    · exact .some hxy.2
    · exact ih

/-! ## Producers -/

namespace Producer.Like

variable {p p' q q' : Producer}

theorem ofList {vs vs' : List Value} (h : Forall₂ (Value.Alike (β .known)) vs vs') :
    (ofList vs).Like β (ofList vs') := by
  induction h with
  | nil => exact .done
  | cons hv _ ih => exact .emit hv ih

theorem singleton {v v' : Value} (h : v.Alike (β .known) v') :
    (singleton v).Like β (singleton v') := .emit h .done

theorem atomic (a : Atomic) : (Producer.singleton (.atomic a)).Like β (.singleton (.atomic a)) :=
  singleton (.atomic a)

theorem ofExcept {x x' : Except Error Producer} (h : Except.Alike (Producer.Like β) x x') :
    (ofExcept x).Like β (ofExcept x') := by
  cases h with
  | ok h => exact h
  | error e => exact .fail

theorem deferred {x x' : Unit → Except Error Producer}
    (h : Except.Alike (Producer.Like β) (x ()) (x' ())) : (deferred x).Like β (deferred x') :=
  .append .done (ofExcept h)

theorem concat {ps ps' : List Producer} (h : Forall₂ (Producer.Like β) ps ps') :
    (concat ps).Like β (concat ps') := by
  induction h with
  | nil => exact .done
  | cons hp _ ih => exact .append hp ih

theorem reader {s s' : Shared} (h : s.Alike (β .known) s') : (reader s).Like β (reader s') := by
  cases h with
  | listed hl hv => exact ofList (Shared.alike_listed.1 (.listed hl hv))
  | cell h => exact .call (.read (.known (.cell h)))

theorem readers {ms ms' : List Shared} (h : Forall₂ (Shared.Alike (β .known)) ms ms') :
    (readers ms).Like β (readers ms') := by
  apply concat
  refine rel_map ?_ h
  exact fun _ _ => reader

theorem shareAll {ps ps' : List Producer} {k k' : List Shared → Producer}
    (h : Forall₂ (Producer.Like β) ps ps')
    (hk : ∀ β', β ≤ β' → ∀ ss ss', Forall₂ (Shared.Alike (β' .known)) ss ss' →
      (k ss).Like β' (k' ss')) :
    (shareAll ps k).Like β (shareAll ps' k') := by
  induction ps generalizing β ps' k k' with
  | nil =>
    cases h
    exact hk β le_rfl _ _ .nil
  | cons p ps ih =>
    cases h with
    | cons hp hps =>
      apply share hp
      intro β' hβ s s' hs
      apply ih (hps.imp fun _ _ h => h.mono hβ)
      intro β'' hβ' ss ss' hss
      exact hk β'' (hβ.trans hβ') _ _ (.cons (hs.mono (hβ' .known)) hss)

theorem drain {k k' : List Value → Producer} (hp : p.Like β p')
    (hk : ∀ β', β ≤ β' → ∀ vs vs', Forall₂ (Value.Alike (β' .known)) vs vs' →
      (k vs).Like β' (k' vs')) :
    (drain p k).Like β (drain p' k') := by
  apply gather hp
  · intro β' _ _ kept kept' v v' hkept hv
    exact .more (.cons hv hkept)
  · intro β' hβ kept kept' hkept
    exact hk β' hβ _ _ (rel_reverse hkept)

theorem first {k k' : Option Value → Producer} (hp : p.Like β p')
    (hk : ∀ β', β ≤ β' → ∀ x x', Option.Rel (Value.Alike (β' .known)) x x' →
      (k x).Like β' (k' x')) :
    (first p k).Like β (first p' k') := by
  apply gather hp
  · intro β' _ _ _ _ v v' _ hv
    exact .enough (.cons hv .nil)
  · intro β' hβ kept kept' hkept
    exact hk β' hβ _ _ (Option.Rel.head? hkept)

theorem firsts {ps ps' : List Producer} {k k' : List (Option Value) → Producer}
    (h : Forall₂ (Producer.Like β) ps ps')
    (hk : ∀ β', β ≤ β' → ∀ xs xs', Forall₂ (Option.Rel (Value.Alike (β' .known))) xs xs' →
      (k xs).Like β' (k' xs')) :
    (firsts ps k).Like β (firsts ps' k') := by
  induction ps generalizing β ps' k k' with
  | nil =>
    cases h
    exact hk β le_rfl _ _ .nil
  | cons p ps ih =>
    cases h with
    | cons hp hps =>
      apply first hp
      intro β' hβ x x' hx
      apply ih (hps.imp fun _ _ h => h.mono hβ)
      intro β'' hβ' xs xs' hxs
      exact hk β'' (hβ.trans hβ') _ _ (.cons (hx.imp fun _ _ h => h.mono (hβ' .known)) hxs)

theorem truth {k k' : Bool → Producer} (hp : p.Like β p')
    (hk : ∀ β', β ≤ β' → ∀ b, (k b).Like β' (k' b)) : (truth p k).Like β (truth p' k') := by
  apply gather hp
  · intro β' _ _ kept kept' v v' hkept hv
    have hempty : kept.isEmpty = kept'.isEmpty := by cases hkept <;> rfl
    simp only [truthStep, hempty, hv.isNode]
    split
    · exact .more (.cons hv .nil)
    · exact .enough (.cons hv hkept)
  · intro β' hβ kept kept' hkept
    rw [Value.Alike.truthOf (rel_reverse hkept)]
    cases truthOf kept'.reverse with
    | ok b => exact hk β' hβ b
    | error e => exact .fail

theorem flatMap {body body' : Value → Producer} (hp : p.Like β p')
    (hbody : ∀ β', β ≤ β' → ∀ v v', v.Alike (β' .known) v' → (body v).Like β' (body' v')) :
    (flatMap p body).Like β (flatMap p' body') :=
  forEach hp (fun β' hβ _ => hbody β' hβ) fun _ => .done

theorem mapItems {f f' : Value → Except Error Value} (hp : p.Like β p')
    (hf : ∀ β', β ≤ β' → ∀ v v', v.Alike (β' .known) v' →
      Except.Alike (Value.Alike (β' .known)) (f v) (f' v')) :
    (mapItems p f).Like β (mapItems p' f') := by
  apply flatMap hp
  intro β' hβ v v' hv
  have h := hf β' hβ v v' hv
  generalize f v = x, f' v' = x' at h
  cases h with
  | ok h => exact singleton h
  | error e => exact .fail

theorem perform {α : Type} (access : Access) (t : Task α) {k k' : α → Producer}
    (hk : ∀ a, (k a).Like β (k' a)) : (perform access t k).Like β (perform access t k') := by
  induction t with
  | pure a => exact hk a
  | fail e => exact .fail
  | ask q next ih =>
    cases access with
    | live => exact .ask ih
    | detached => exact .fail

theorem flatten (hp : p.Like β p') : (flatten p).Like β (flatten p') := by
  apply flatMap hp
  intro β' _ v v' hv
  cases hv with
  | atomic a => exact singleton (.atomic a)
  | node n => exact singleton (.node n)
  | map hl hk hs => exact singleton (.map hl hk hs)
  | array hl hs => exact .call (.leaves (Value.alike_array.1 (.array hl hs)))
  | function hf => exact singleton (.function hf)

theorem atomize (access : Access) (hp : p.Like β p') :
    (atomize access p).Like β (atomize access p') := by
  apply flatMap (flatten hp)
  intro β' _ v v' hv
  rw [hv.atomized]
  exact perform access _ fun a => singleton (.atomic a)

end Producer.Like

/-! ## Calls -/

theorem Goal.entries_alike {left left' right right' : Entries}
    (hl : Forall₂ (Entries.Like ρ) left left') (hr : Forall₂ (Entries.Like ρ) right right') :
    Forall₂ (Goal.Alike ρ) (Goal.entries left right) (Goal.entries left' right') := by
  refine rel_map ?_ hl
  rintro ⟨key, value⟩ ⟨key', value'⟩ ⟨hkey, hvalue⟩
  cases hkey
  have hget := Entries.get?_alike hr key
  dsimp only
  generalize right.get? key = x, right'.get? key = x' at hget
  cases hget with
  | some h => exact .members hvalue h
  | none => exact .differ

theorem Goal.unfold_like (access : Access) {a a' b b' : Value} {rest rest' : List Goal}
    (ha : a.Alike (β .known) a') (hb : b.Alike (β .known) b')
    (hrest : Forall₂ (Goal.Alike (β .known)) rest rest') :
    (Goal.unfold access a b rest).Like β (Goal.unfold access a' b' rest') := by
  have verdict (equal : Bool) :
      Producer.Like β (if equal then .call (.equal access rest) else .singleton (.boolean false))
        (if equal then .call (.equal access rest') else .singleton (.boolean false)) := by
    cases equal
    · exact .atomic _
    · exact .call (.equal hrest)
  cases ha with
  | atomic a =>
    cases hb with
    | atomic b => exact verdict (a.deepEqual b)
    | _ => exact verdict false
  | node a =>
    cases hb with
    | node b => exact .perform access (a.deepEqual b) verdict
    | _ => exact verdict false
  | map hl hk hs =>
    cases hb with
    | map hl' hk' hs' =>
      have hleft := Value.alike_map.1 (.map hl hk hs)
      have hright := Value.alike_map.1 (.map hl' hk' hs')
      simp only [Goal.unfold, hl, hl']
      split
      · exact .call (.equal (rel_append (Goal.entries_alike hleft hright) hrest))
      · exact verdict false
    | _ => exact verdict false
  | array hl hs =>
    cases hb with
    | array hl' hs' =>
      have hleft := Value.alike_array.1 (.array hl hs)
      have hright := Value.alike_array.1 (.array hl' hs')
      simp only [Goal.unfold, hl, hl']
      split
      · refine .call (.equal (rel_append ?_ hrest))
        refine rel_map ?_ (hleft.zip hright)
        exact fun _ _ h => .members h.1 h.2
      · exact verdict false
    | _ => exact verdict false
  | function hf =>
    cases hb <;> exact verdict false

/-- What a call stands for. -/
theorem Call.Alike.body {τ : Ties} {c c' : Call} (hc : c.Alike τ c') : c.body.Alike τ c'.body := by
  cases hc with
  | read h =>
    apply Producer.Alike.fetch h
    intro τ' hτ x x' hx
    cases hx with
    | some hv => exact .emit hv (.call (.read (h.mono hτ)))
    | none => exact .done
  | leaves h => exact (Producer.Like.flatten (.readers h)).alike
  | equal h =>
    cases h with
    | nil => exact (Producer.Like.atomic _).alike
    | cons hg hrest =>
      cases hg with
      | differ => exact (Producer.Like.atomic _).alike
      | items ha hb => exact (Goal.unfold_like _ ha hb hrest).alike
      | members ha hb =>
        apply Producer.Like.alike
        apply Producer.Like.fetch ha
        intro β' hβ x x' hx
        apply Producer.Like.fetch (hb.mono (hβ .known))
        intro β'' hβ' y y' hy
        have hrest' := hrest.imp fun _ _ h => h.mono ((hβ.trans hβ') .known)
        have ha' := ha.mono ((hβ.trans hβ') .known)
        have hb' := hb.mono ((hβ.trans hβ') .known)
        cases hx with
        | none =>
          cases hy with
          | none => exact .call (.equal hrest')
          | some _ => exact .atomic _
        | some hx =>
          cases hy with
          | none => exact .atomic _
          | some hy =>
            exact .call (.equal (.cons (.items (hx.mono (hβ' .known)) hy)
              (.cons (.members ha' hb') hrest')))

end XPath
