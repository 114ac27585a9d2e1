import XPath.Proofs.Library.Likeness

/-!
# Replies to like calls

A built-in function sees of its arguments only what is alike in both, so it gives like replies
(`Builtin.respects`), and so does every function that can be called (`Function.invoke_like`).
-/

namespace List

variable {α β : Type} {R : α → β → Prop} {l : List α} {l' : List β}

theorem Forall₂.none (h : Forall₂ R l l') (hl : l.length = 0) : l = [] ∧ l' = [] := by
  cases h with
  | nil => exact ⟨rfl, rfl⟩
  | cons => cases hl

theorem Forall₂.one (h : Forall₂ R l l') (hl : l.length = 1) :
    ∃ a a', l = [a] ∧ l' = [a'] ∧ R a a' := by
  cases h with
  | nil => cases hl
  | cons ha h =>
    obtain ⟨rfl, rfl⟩ := h.none (Nat.succ.inj hl)
    exact ⟨_, _, rfl, rfl, ha⟩

theorem Forall₂.two (h : Forall₂ R l l') (hl : l.length = 2) :
    ∃ a b a' b', l = [a, b] ∧ l' = [a', b'] ∧ R a a' ∧ R b b' := by
  cases h with
  | nil => cases hl
  | cons ha h =>
    obtain ⟨b, b', rfl, rfl, hb⟩ := h.one (Nat.succ.inj hl)
    exact ⟨_, _, _, _, rfl, rfl, ha, hb⟩

theorem Forall₂.three (h : Forall₂ R l l') (hl : l.length = 3) :
    ∃ a b c a' b' c', l = [a, b, c] ∧ l' = [a', b', c'] ∧ R a a' ∧ R b b' ∧ R c c' := by
  cases h with
  | nil => cases hl
  | cons ha h =>
    obtain ⟨b, c, b', c', rfl, rfl, hb, hc⟩ := h.two (Nat.succ.inj hl)
    exact ⟨_, _, _, _, _, _, rfl, rfl, ha, hb, hc⟩

end List

namespace XPath

open List

variable {ρ : Matching} {β : Scope} {p p' q q' : Producer}

/-! ## Parts of replies -/

theorem Reply.array_like {ms ms' : List Shared} (h : Forall₂ (Shared.Alike (β .known)) ms ms') :
    Except.Alike (Producer.Like β) (Reply.array ms) (Reply.array ms') :=
  .ok (.singleton (Value.alike_array.2 h))

theorem stringOf_like (access : Access) (h : p.Like β p') :
    (stringOf access p).Like β (stringOf access p') := by
  apply Producer.Like.withAll h
  intro β' _ vs vs' hvs
  cases hvs with
  | nil => exact .ok (.atomic _)
  | cons hv _ =>
    cases hv with
    | atomic a => exact .ok (.atomic _)
    | node n => exact .ok (.perform access _ fun a => .atomic _)
    | map hl hk hs => exact .error _
    | array hl hs => exact .error _
    | function hf => exact .error _

theorem equalSequences_like (access : Access) (h : p.Like β p') (h' : q.Like β q') :
    (equalSequences access p q).Like β (equalSequences access p' q') := by
  apply Producer.Like.share h
  intro β' hβ s s' hs
  apply Producer.Like.share (h'.mono hβ)
  intro β'' hβ' t t' ht
  exact .call (.equal (.cons (.members (hs.mono (hβ' .known)) ht) .nil))

theorem NamePart.reply_like (part : NamePart) (h : p.Like β p') :
    (part.reply p).Like β (part.reply p') := by
  apply Producer.Like.withFirsts (.cons h .nil)
  intro β' _ xs xs' hxs
  refine (Except.Alike.of_eq (expectNode_eq hxs.joined_head)).bind ?_
  rintro n _ rfl
  apply Except.Alike.ok
  split
  · exact .atomic _
  · exact .done

theorem rootOf_like (access : Access) (h : p.Like β p') :
    (rootOf access p).Like β (rootOf access p') := by
  apply Producer.Like.withFirsts (.cons h .nil)
  intro β' _ xs xs' hxs
  refine (Except.Alike.of_eq (expectNode_eq hxs.joined_head)).bind ?_
  rintro n _ rfl
  split
  · exact .ok .done
  · exact .ok (.perform access _ fun chain => .singleton (.node _))

theorem selectNested_like (access : Access) (select : List (OrderKey × Node) → List Node)
    (h : p.Like β p') : (selectNested access p select).Like β (selectNested access p' select) := by
  apply Producer.Like.withAll h
  intro β' _ vs vs' hvs
  refine (Except.Alike.mapM hvs fun v v' hv => .of_eq (expectNode_eq (.some hv))).bind ?_
  intro ns ns' hns
  rw [forall₂_eq_eq_eq] at hns
  subst hns
  exact .ok (.perform access _ fun sorted => .ofList (Value.Alike.self_nodes _))

theorem searchFrom_like (access : Access) (lookup : IdLookup) (h : p.Like β p') (h' : q.Like β q') :
    (searchFrom access lookup p q).Like β (searchFrom access lookup p' q') := by
  apply Producer.Like.first h'
  intro β' hβ x x' hx
  cases hx with
  | none => exact .done
  | some hv =>
    cases hv with
    | node n =>
      apply Producer.Like.drain (h.mono hβ)
      intro β'' _ vs vs' hvs
      rw [Value.Alike.atomics hvs]
      exact .perform access _ fun found => .ofList (Value.Alike.self_nodes found)
    | _ => exact .done

theorem Value.Alike.logged {v v' : Value} (h : v.Alike ρ v') : v.logged = v'.logged := by
  cases h <;> rfl

theorem traced_like (label : String) (h : p.Like β p') : (traced label p).Like β (traced label p') := by
  apply Producer.Like.drain h
  intro β' _ vs vs' hvs
  rw [hvs.map_eq fun _ _ hv => hv.logged]
  exact .log (Producer.Like.ofList hvs)

theorem lookUpKey_like {es es' : Entries} (h : Forall₂ (Entries.Like (β .known)) es es')
    (key : Atomic) : (lookUpKey es key).Like β (lookUpKey es' key) := by
  have hget := Entries.get?_alike h key
  unfold lookUpKey
  generalize es.get? key = x, es'.get? key = x' at hget
  cases hget with
  | some hs => exact .reader hs
  | none => exact .done

mutual

/-- A JSON value refers to no cell. -/
theorem Json.items_alike : ∀ json : Json, Forall₂ (Value.Alike ρ) json.items json.items
  | .null => by
    rw [Json.items]
    exact .nil
  | .boolean b => by
    rw [Json.items]
    exact .cons (.atomic _) .nil
  | .number d => by
    rw [Json.items]
    exact .cons (.atomic _) .nil
  | .string s => by
    rw [Json.items]
    exact .cons (.atomic _) .nil
  | .array members => by
    rw [Json.items]
    exact .cons (Value.alike_array.2 (Json.memberItems_alike members)) .nil
  | .object entries => by
    rw [Json.items]
    exact .cons (Value.alike_map.2 (Json.entryItems_alike entries)) .nil

theorem Json.memberItems_alike : ∀ members : List Json,
    Forall₂ (Shared.Alike ρ) (Json.memberItems members) (Json.memberItems members)
  | [] => by
    rw [Json.memberItems]
    exact .nil
  | m :: rest => by
    rw [Json.memberItems]
    exact .cons (Shared.alike_listed.2 (Json.items_alike m)) (Json.memberItems_alike rest)

theorem Json.entryItems_alike : ∀ entries : List (String × Json),
    Forall₂ (Entries.Like ρ) (Json.entryItems entries) (Json.entryItems entries)
  | [] => by
    rw [Json.entryItems]
    exact .nil
  | (key, value) :: rest => by
    rw [Json.entryItems]
    exact .cons ⟨rfl, Shared.alike_listed.2 (Json.items_alike value)⟩ (Json.entryItems_alike rest)

end

theorem parseJson_like (text : String) :
    Except.Alike (Producer.Like β) (parseJson text) (parseJson text) := by
  unfold parseJson
  split
  · exact .ok (.ofList (Json.items_alike _))
  · exact .error _

/-! ## Array functions -/

namespace Members

variable {c c' : CallContext} {f f' : Function} {ms ms' : List Shared}

theorem withKeys_like (access : Access) {k k' : List Keyed → Producer}
    (h : Forall₂ (Shared.Alike (β .known)) ms ms')
    (hk : ∀ β', β ≤ β' → ∀ keyed keyed', Forall₂ (Keyed.Like (β' .known)) keyed keyed' →
      (k keyed).Like β' (k' keyed')) :
    (withKeys access ms k).Like β (withKeys access ms' k') := by
  induction ms generalizing β ms' k k' with
  | nil =>
    cases h
    exact hk β le_rfl _ _ .nil
  | cons m ms ih =>
    cases h with
    | cons hm hms =>
      apply Producer.Like.drain (.atomize access (.reader hm))
      intro β' hβ vs vs' hvs
      rw [Value.Alike.atomics hvs]
      apply ih (hms.imp fun _ _ h => h.mono (hβ .known))
      intro β'' hβ' keyed keyed' hkeyed
      exact hk β'' (hβ.trans hβ') _ _ (.cons ⟨rfl, hm.mono ((hβ.trans hβ') .known)⟩ hkeyed)

theorem truths_like {k k' : List Bool → Producer} (h : Forall₂ (Shared.Alike (β .known)) ms ms')
    (hk : ∀ β', β ≤ β' → ∀ bs, (k bs).Like β' (k' bs)) :
    (truths ms k).Like β (truths ms' k') := by
  induction ms generalizing β ms' k k' with
  | nil =>
    cases h
    exact hk β le_rfl _
  | cons m ms ih =>
    cases h with
    | cons hm hms =>
      apply Producer.Like.truth (.reader hm)
      intro β' hβ b
      apply ih (hms.imp fun _ _ h => h.mono (hβ .known))
      intro β'' hβ' bs
      exact hk β'' (hβ.trans hβ') _

theorem filter_like (hf : f.Alike (β .known) f') (hc : c.Alike β c')
    (h : Forall₂ (Shared.Alike (β .known)) ms ms') :
    (filter ms f c).Like β (filter ms' f' c') := by
  refine Producer.Like.applyAll hf hc (rel_map ?_ h) ?_
  · exact fun s s' hs => .cons (.reader hs) .nil
  intro β' hβ ss ss' hss
  apply truths_like hss
  intro β'' hβ' verdicts
  refine .singleton (Value.alike_array.2 (rel_map (fun _ _ h => h.1) (rel_filter ?_
    ((h.imp fun _ _ h => h.mono ((hβ.trans hβ') .known)).zip
      (forall₂_same.2 fun b _ => rfl : Forall₂ (fun b b' => b = b') verdicts verdicts)))))
  rintro ⟨_, b⟩ ⟨_, _⟩ ⟨_, rfl⟩
  rfl

theorem foldLeft_like (hf : f.Alike (β .known) f') (hc : c.Alike β c') (hp : p.Like β p')
    (h : Forall₂ (Shared.Alike (β .known)) ms ms') :
    (foldLeft f c p ms).Like β (foldLeft f' c' p' ms') := by
  induction ms generalizing β ms' p p' with
  | nil =>
    cases h
    exact hp
  | cons m ms ih =>
    cases h with
    | cons hm hms =>
      apply Producer.Like.apply hf hc (.cons hp (.cons (.reader hm) .nil))
      intro β' hβ s s' hs
      exact ih (hf.mono (hβ .known)) (hc.mono hβ) (.reader hs)
        (hms.imp fun _ _ h => h.mono (hβ .known))

theorem foldRight_like (hf : f.Alike (β .known) f') (hc : c.Alike β c') (hp : p.Like β p')
    (h : Forall₂ (Shared.Alike (β .known)) ms ms') :
    (foldRight f c p ms).Like β (foldRight f' c' p' ms') := by
  induction ms generalizing β ms' p p' with
  | nil =>
    cases h
    exact hp
  | cons m ms ih =>
    cases h with
    | cons hm hms =>
      apply Producer.Like.apply hf hc (.cons (.reader hm) (.cons hp .nil))
      intro β' hβ s s' hs
      exact ih (hf.mono (hβ .known)) (hc.mono hβ) (.reader hs)
        (hms.imp fun _ _ h => h.mono (hβ .known))

end Members

/-! ## Built-in functions -/

theorem expectInteger_alike {x x' : Option Value} (h : Option.Rel (Value.Alike ρ) x x') :
    Except.Alike (fun i j => i = j) (expectInteger x) (expectInteger x') :=
  .of_eq (expectInteger_eq h)

theorem expectAtomic_alike {x x' : Option Value} (h : Option.Rel (Value.Alike ρ) x x') :
    Except.Alike (fun a b => a = b) (expectAtomic x) (expectAtomic x') := .of_eq (expectAtomic_eq h)

/-- The first argument is an array. -/
theorem Producer.Like.withArray {ps ps' : List Producer}
    {next next' : List Shared → List (Option Value) → Reply} (h : Forall₂ (Producer.Like β) ps ps')
    (hk : ∀ β', β ≤ β' → ∀ ms ms' xs xs', Forall₂ (Shared.Alike (β' .known)) ms ms' →
      Forall₂ (Option.Rel (Value.Alike (β' .known))) xs xs' →
      Except.Alike (Producer.Like β') (next ms xs) (next' ms' xs')) :
    (XPath.withFirsts ps fun xs => do next (← expectArray xs.head?.join) xs).Like β
      (XPath.withFirsts ps' fun xs => do next' (← expectArray xs.head?.join) xs) := by
  apply withFirsts h
  intro β' hβ xs xs' hxs
  apply (expectArray_alike hxs.joined_head).bind
  intro ms ms' hms
  exact hk β' hβ ms ms' xs xs' hms hxs

/-- The first argument is a map. -/
theorem Producer.Like.withMap {ps ps' : List Producer}
    {next next' : Entries → List (Option Value) → Reply} (h : Forall₂ (Producer.Like β) ps ps')
    (hk : ∀ β', β ≤ β' → ∀ es es' xs xs', Forall₂ (Entries.Like (β' .known)) es es' →
      Forall₂ (Option.Rel (Value.Alike (β' .known))) xs xs' →
      Except.Alike (Producer.Like β') (next es xs) (next' es' xs')) :
    (XPath.withFirsts ps fun xs => do next (← expectMap xs.head?.join) xs).Like β
      (XPath.withFirsts ps' fun xs => do next' (← expectMap xs.head?.join) xs) := by
  apply withFirsts h
  intro β' hβ xs xs' hxs
  apply (expectMap_alike hxs.joined_head).bind
  intro es es' hes
  exact hk β' hβ es es' xs xs' hes hxs

/-- The first argument is an array, and the second one a place in it. -/
theorem Producer.Like.withArrayAt {ps ps' : List Producer} {next next' : List Shared → Int → Reply}
    (h : Forall₂ (Producer.Like β) ps ps')
    (hk : ∀ β', β ≤ β' → ∀ ms ms', Forall₂ (Shared.Alike (β' .known)) ms ms' →
      ∀ i, Except.Alike (Producer.Like β') (next ms i) (next' ms' i)) :
    (XPath.withFirsts ps fun xs => do
        let members ← expectArray xs.head?.join
        next members (← expectInteger xs[1]?.join)).Like β
      (XPath.withFirsts ps' fun xs => do
        let members ← expectArray xs.head?.join
        next' members (← expectInteger xs[1]?.join)) := by
  apply withArray h
  intro β' hβ ms ms' xs xs' hms hxs
  refine (expectInteger_alike (hxs.joined 1)).bind ?_
  rintro i _ rfl
  exact hk β' hβ ms ms' hms i

/-- The first argument is a map, and the second one a key. -/
theorem Producer.Like.withMapAt {ps ps' : List Producer} {next next' : Entries → Atomic → Reply}
    (h : Forall₂ (Producer.Like β) ps ps')
    (hk : ∀ β', β ≤ β' → ∀ es es', Forall₂ (Entries.Like (β' .known)) es es' →
      ∀ key, Except.Alike (Producer.Like β') (next es key) (next' es' key)) :
    (XPath.withFirsts ps fun xs => do
        let entries ← expectMap xs.head?.join
        next entries (← expectAtomic xs[1]?.join)).Like β
      (XPath.withFirsts ps' fun xs => do
        let entries ← expectMap xs.head?.join
        next' entries (← expectAtomic xs[1]?.join)) := by
  apply withMap h
  intro β' hβ es es' xs xs' hes hxs
  refine (expectAtomic_alike (hxs.joined 1)).bind ?_
  rintro key _ rfl
  exact hk β' hβ es es' hes key

theorem Entries.contains_eq {es es' : Entries} (h : Forall₂ (Entries.Like ρ) es es') (key : Atomic) :
    es.contains key = es'.contains key := by
  have hget := Entries.get?_alike h key
  unfold Entries.contains
  generalize es.get? key = x, es'.get? key = x' at hget
  cases hget <;> rfl

namespace Builtin

/-- In like contexts, and for as many like arguments as it takes, the function gives like replies. -/
def Respects (f : Builtin) : Prop :=
  ∀ ⦃β : Scope⦄ ⦃c c' : CallContext⦄ ⦃ps ps' : List Producer⦄, c.Alike β c' →
    Forall₂ (Producer.Like β) ps ps' → ps.length = f.signature.arity →
    Except.Alike (Producer.Like β) (f.run c ps) (f.run c' ps')

theorem last_respects : last.Respects := by
  rintro β ⟨context, access, ns⟩ ⟨context', _, _⟩ ps ps' hc h hl
  obtain ⟨hcontext, rfl, rfl⟩ := id hc
  obtain ⟨rfl, rfl⟩ := h.none hl
  have hs := hcontext.sequence
  dsimp only [run]
  generalize context.sequence = x, context'.sequence = x' at hs
  cases hs with
  | some hs => exact .ok (.last hs)
  | none => exact .error _

theorem data_respects (implicit : Bool) : (data implicit).Respects := by
  rintro β ⟨context, access, ns⟩ ⟨context', _, _⟩ ps ps' hc h hl
  obtain ⟨hcontext, rfl, rfl⟩ := id hc
  cases implicit with
  | true =>
    obtain ⟨rfl, rfl⟩ := h.none hl
    exact (hc.contextItem "fn:data").bind fun v v' hv => .ok (.atomize _ (.singleton hv))
  | false =>
    obtain ⟨a, a', rfl, rfl, ha⟩ := h.one hl
    exact .ok (.atomize _ ha)

theorem string_respects (implicit : Bool) : (string implicit).Respects := by
  rintro β ⟨context, access, ns⟩ ⟨context', _, _⟩ ps ps' hc h hl
  obtain ⟨hcontext, rfl, rfl⟩ := id hc
  cases implicit with
  | true =>
    obtain ⟨rfl, rfl⟩ := h.none hl
    exact (hc.contextItem "fn:string").bind fun v v' hv => .ok (stringOf_like _ (.singleton hv))
  | false =>
    obtain ⟨a, a', rfl, rfl, ha⟩ := h.one hl
    exact .ok (stringOf_like _ ha)

theorem nameOf_respects (part : NamePart) (implicit : Bool) : (nameOf part implicit).Respects := by
  rintro β ⟨context, access, ns⟩ ⟨context', _, _⟩ ps ps' hc h hl
  obtain ⟨hcontext, rfl, rfl⟩ := id hc
  cases implicit with
  | true =>
    obtain ⟨rfl, rfl⟩ := h.none (by cases part <;> exact hl)
    exact (hc.contextNode part.functionName).bind fun p p' hp => .ok (part.reply_like hp)
  | false =>
    obtain ⟨a, a', rfl, rfl, ha⟩ := h.one (by cases part <;> exact hl)
    exact .ok (part.reply_like ha)

theorem root_respects (implicit : Bool) : (root implicit).Respects := by
  rintro β ⟨context, access, ns⟩ ⟨context', _, _⟩ ps ps' hc h hl
  obtain ⟨hcontext, rfl, rfl⟩ := id hc
  cases implicit with
  | true =>
    obtain ⟨rfl, rfl⟩ := h.none hl
    exact (hc.contextNode "fn:root").bind fun p p' hp => .ok (rootOf_like _ hp)
  | false =>
    obtain ⟨a, a', rfl, rfl, ha⟩ := h.one hl
    exact .ok (rootOf_like _ ha)

theorem search_respects (lookup : IdLookup) (implicit : Bool) : (search lookup implicit).Respects := by
  rintro β ⟨context, access, ns⟩ ⟨context', _, _⟩ ps ps' hc h hl
  obtain ⟨hcontext, rfl, rfl⟩ := id hc
  cases implicit with
  | true =>
    obtain ⟨a, a', rfl, rfl, ha⟩ := h.one (by cases lookup <;> exact hl)
    exact (hc.contextItem _).bind fun v v' hv => .ok (searchFrom_like _ _ ha (.singleton hv))
  | false =>
    obtain ⟨a, b, a', b', rfl, rfl, ha, hb⟩ := h.two (by cases lookup <;> exact hl)
    exact .ok (searchFrom_like _ _ ha hb)

theorem parseJson_respects : parseJson.Respects := by
  intro β c c' ps ps' _ h hl
  obtain ⟨a, a', rfl, rfl, ha⟩ := h.one hl
  refine .ok (.withFirsts (.cons ha .nil) fun β' _ xs xs' hxs => ?_)
  have hx := hxs.joined_head
  generalize xs.head?.join = x, xs'.head?.join = x' at hx
  cases hx with
  | none => exact .ok .done
  | some hv =>
    refine (expectAtomic_alike (.some hv)).bind ?_
    rintro t _ rfl
    exact parseJson_like _

theorem trace_respects (labelled : Bool) : (trace labelled).Respects := by
  intro β c c' ps ps' _ h hl
  cases labelled with
  | false =>
    obtain ⟨a, a', rfl, rfl, ha⟩ := h.one hl
    exact .ok (traced_like "" ha)
  | true =>
    obtain ⟨a, l, a', l', rfl, rfl, ha, hlabel⟩ := h.two hl
    refine .ok (.withFirsts (.cons hlabel .nil) fun β' hβ xs xs' hxs => ?_)
    have hx := hxs.joined_head
    generalize xs.head?.join = x, xs'.head?.join = x' at hx
    cases hx with
    | none => exact .error _
    | some hv =>
      cases hv with
      | atomic t => exact .ok (traced_like _ (ha.mono hβ))
      | _ => exact .error _

theorem arrayPut_respects : arrayPut.Respects := by
  intro β c c' ps ps' _ h hl
  obtain ⟨a, p, m, a', p', m', rfl, rfl, ha, hp, hm⟩ := h.three hl
  refine .ok (.share hm fun β' hβ s s' hs => ?_)
  refine .withArrayAt (.cons (ha.mono hβ) (.cons (hp.mono hβ) .nil)) fun β'' hβ' ms ms' hms i => ?_
  exact (Members.put_alike hms (hs.mono (hβ' .known)) i).bind fun _ _ => Reply.array_like

theorem arraySubarray_respects (withLength : Bool) : (arraySubarray withLength).Respects := by
  intro β c c' ps ps' _ h hl
  cases withLength with
  | false =>
    obtain ⟨a, p, a', p', rfl, rfl, ha, hp⟩ := h.two hl
    refine .ok (.withArrayAt (.cons ha (.cons hp .nil)) fun β' _ ms ms' hms i => ?_)
    exact (Members.subarrayFrom_alike hms i).bind fun _ _ => Reply.array_like
  | true =>
    obtain ⟨a, p, l, a', p', l', rfl, rfl, ha, hp, hlen⟩ := h.three hl
    refine .ok (.withArray (.cons ha (.cons hp (.cons hlen .nil))) ?_)
    intro β' _ ms ms' xs xs' hms hxs
    refine (expectInteger_alike (hxs.joined 1)).bind ?_
    rintro start _ rfl
    refine (expectInteger_alike (hxs.joined 2)).bind ?_
    rintro len _ rfl
    exact (Members.subarray_alike hms start len).bind fun _ _ => Reply.array_like

theorem arrayRemove_respects : arrayRemove.Respects := by
  intro β c c' ps ps' _ h hl
  obtain ⟨a, p, a', p', rfl, rfl, ha, hp⟩ := h.two hl
  refine .ok (.withArray (.cons ha .nil) fun β' hβ ms ms' _ _ hms _ => ?_)
  refine .ok (.withAll (hp.mono hβ) fun β'' hβ' vs vs' hvs => ?_)
  refine (Except.Alike.mapM hvs fun v v' hv => expectInteger_alike (.some hv)).bind ?_
  intro positions positions' hpositions
  rw [forall₂_eq_eq_eq] at hpositions
  subst hpositions
  exact (Members.remove_alike (hms.imp fun _ _ h => h.mono (hβ' .known)) positions).bind
    fun _ _ => Reply.array_like

theorem arrayInsertBefore_respects : arrayInsertBefore.Respects := by
  intro β c c' ps ps' _ h hl
  obtain ⟨a, p, m, a', p', m', rfl, rfl, ha, hp, hm⟩ := h.three hl
  refine .ok (.share hm fun β' hβ s s' hs => ?_)
  refine .withArrayAt (.cons (ha.mono hβ) (.cons (hp.mono hβ) .nil)) fun β'' hβ' ms ms' hms i => ?_
  exact (Members.insertBefore_alike hms (hs.mono (hβ' .known)) i).bind fun _ _ => Reply.array_like

theorem arrayFilter_respects : arrayFilter.Respects := by
  rintro β ⟨context, access, ns⟩ ⟨context', _, _⟩ ps ps' hc h hl
  obtain ⟨hcontext, rfl, rfl⟩ := id hc
  obtain ⟨a, f, a', f', rfl, rfl, ha, hf⟩ := h.two hl
  refine .ok (.withArray (.cons ha .nil) fun β' hβ ms ms' _ _ hms _ => ?_)
  refine .ok (.withFirsts (.cons (hf.mono hβ) .nil) fun β'' hβ' xs xs' hxs => ?_)
  refine (expectFunction_alike hxs.joined_head).bind fun f f' hf => ?_
  exact .ok (Members.filter_like hf (hc.mono (hβ.trans hβ'))
    (hms.imp fun _ _ h => h.mono (hβ' .known)))

theorem arrayForEachPair_respects : arrayForEachPair.Respects := by
  rintro β ⟨context, access, ns⟩ ⟨context', _, _⟩ ps ps' hc h hl
  obtain ⟨hcontext, rfl, rfl⟩ := id hc
  obtain ⟨a, b, f, a', b', f', rfl, rfl, ha, hb, hf⟩ := h.three hl
  refine .ok (.withArray (.cons ha (.cons hb (.cons hf .nil))) ?_)
  intro β' hβ ms ms' xs xs' hms hxs
  refine (expectArray_alike (hxs.joined 1)).bind fun ns ns' hns => ?_
  refine (expectFunction_alike (hxs.joined 2)).bind fun f f' hf => ?_
  refine .ok (.applyAll hf (hc.mono hβ) (rel_map ?_ (hms.zip hns)) fun β'' _ ss ss' hss => ?_)
  · exact fun x x' hx => .cons (.reader hx.1) (.cons (.reader hx.2) .nil)
  · exact .singleton (Value.alike_array.2 hss)

theorem cast_respects (target : ItemType) : (cast target).Respects := by
  rintro β ⟨context, access, ns⟩ ⟨context', _, _⟩ ps ps' hc h hl
  obtain ⟨hcontext, rfl, rfl⟩ := id hc
  obtain ⟨a, a', rfl, rfl, ha⟩ := h.one hl
  refine .ok (.withFirsts (.cons ha .nil) fun β' _ xs xs' hxs => ?_)
  have hx := hxs.joined_head
  generalize xs.head?.join = x, xs'.head?.join = x' at hx
  cases hx with
  | none => exact .ok .done
  | some hv =>
    refine (expectAtomic_alike (.some hv)).bind ?_
    rintro a _ rfl
    refine (Except.Alike.of_eq rfl).bind ?_
    rintro b _ rfl
    exact .ok (.atomic b)

/-- Every function respects likeness. -/
theorem respects (f : Builtin) : f.Respects := by
  rintro β ⟨context, access, ns⟩ ⟨context', _, _⟩ ps ps' hc h hl
  obtain ⟨hcontext, rfl, rfl⟩ := id hc
  cases f with
  | constant b =>
    obtain ⟨rfl, rfl⟩ := h.none hl
    exact .ok (.atomic _)
  | boolean =>
    obtain ⟨a, a', rfl, rfl, ha⟩ := h.one hl
    exact .ok (.truth ha fun _ _ b => .atomic _)
  | not =>
    obtain ⟨a, a', rfl, rfl, ha⟩ := h.one hl
    exact .ok (.truth ha fun _ _ b => .atomic _)
  | count =>
    obtain ⟨a, a', rfl, rfl, ha⟩ := h.one hl
    refine .ok (.drain ha fun β' _ vs vs' hvs => ?_)
    rw [hvs.length_eq]
    exact .atomic _
  | empty =>
    obtain ⟨a, a', rfl, rfl, ha⟩ := h.one hl
    refine .ok (.first ha fun β' _ x x' hx => ?_)
    cases hx <;> exact .atomic _
  | «exists» =>
    obtain ⟨a, a', rfl, rfl, ha⟩ := h.one hl
    refine .ok (.first ha fun β' _ x x' hx => ?_)
    cases hx <;> exact .atomic _
  | position =>
    obtain ⟨rfl, rfl⟩ := h.none hl
    refine (hc.contextItem "fn:position").bind fun _ _ _ => ?_
    rw [hcontext.position]
    exact .ok (.atomic _)
  | last => exact last_respects hc h hl
  | deepEqual =>
    obtain ⟨a, b, a', b', rfl, rfl, ha, hb⟩ := h.two hl
    exact .ok (equalSequences_like _ ha hb)
  | data implicit => exact data_respects implicit hc h hl
  | string implicit => exact string_respects implicit hc h hl
  | nameOf part implicit => exact nameOf_respects part implicit hc h hl
  | root implicit => exact root_respects implicit hc h hl
  | innermost =>
    obtain ⟨a, a', rfl, rfl, ha⟩ := h.one hl
    exact .ok (selectNested_like _ _ ha)
  | outermost =>
    obtain ⟨a, a', rfl, rfl, ha⟩ := h.one hl
    exact .ok (selectNested_like _ _ ha)
  | search lookup implicit => exact search_respects lookup implicit hc h hl
  | parseJson => exact parseJson_respects hc h hl
  | trace labelled => exact trace_respects labelled hc h hl
  | mapSize =>
    obtain ⟨m, m', rfl, rfl, hm⟩ := h.one hl
    refine .ok (.withMap (.cons hm .nil) fun β' _ es es' _ _ hes _ => ?_)
    rw [hes.length_eq]
    exact .ok (.atomic _)
  | mapKeys =>
    obtain ⟨m, m', rfl, rfl, hm⟩ := h.one hl
    refine .ok (.withMap (.cons hm .nil) fun β' _ es es' _ _ hes _ => .ok (.ofList (rel_map ?_ hes)))
    rintro ⟨k, _⟩ ⟨_, _⟩ ⟨rfl, _⟩
    exact .atomic k
  | mapContains =>
    obtain ⟨m, k, m', k', rfl, rfl, hm, hk⟩ := h.two hl
    refine .ok (.withMapAt (.cons hm (.cons hk .nil)) fun β' _ es es' hes key => ?_)
    rw [Entries.contains_eq hes]
    exact .ok (.atomic _)
  | mapGet =>
    obtain ⟨m, k, m', k', rfl, rfl, hm, hk⟩ := h.two hl
    exact .ok (.withMapAt (.cons hm (.cons hk .nil)) fun β' _ es es' hes key =>
      .ok (lookUpKey_like hes key))
  | arraySize =>
    obtain ⟨a, a', rfl, rfl, ha⟩ := h.one hl
    refine .ok (.withArray (.cons ha .nil) fun β' _ ms ms' _ _ hms _ => ?_)
    rw [hms.length_eq]
    exact .ok (.atomic _)
  | arrayGet =>
    obtain ⟨a, p, a', p', rfl, rfl, ha, hp⟩ := h.two hl
    refine .ok (.withArrayAt (.cons ha (.cons hp .nil)) fun β' _ ms ms' hms i => ?_)
    exact (Members.get_alike hms i).bind fun s s' hs => .ok (.reader hs)
  | arrayPut => exact arrayPut_respects hc h hl
  | arrayAppend =>
    obtain ⟨a, m, a', m', rfl, rfl, ha, hm⟩ := h.two hl
    refine .ok (.share hm fun β' hβ s s' hs => ?_)
    refine .withArray (.cons (ha.mono hβ) .nil) fun β'' hβ' ms ms' _ _ hms _ => ?_
    exact Reply.array_like (rel_append hms (.cons (hs.mono (hβ' .known)) .nil))
  | arraySubarray withLength => exact arraySubarray_respects withLength hc h hl
  | arrayRemove => exact arrayRemove_respects hc h hl
  | arrayInsertBefore => exact arrayInsertBefore_respects hc h hl
  | arrayHead =>
    obtain ⟨a, a', rfl, rfl, ha⟩ := h.one hl
    refine .ok (.withArray (.cons ha .nil) fun β' _ ms ms' _ _ hms _ => ?_)
    exact (Members.get_alike hms 1).bind fun s s' hs => .ok (.reader hs)
  | arrayTail =>
    obtain ⟨a, a', rfl, rfl, ha⟩ := h.one hl
    refine .ok (.withArray (.cons ha .nil) fun β' _ ms ms' _ _ hms _ => ?_)
    exact (Members.remove_alike hms [1]).bind fun _ _ => Reply.array_like
  | arrayReverse =>
    obtain ⟨a, a', rfl, rfl, ha⟩ := h.one hl
    refine .ok (.withArray (.cons ha .nil) fun β' _ ms ms' _ _ hms _ => ?_)
    exact Reply.array_like (rel_reverse hms)
  | arrayJoin =>
    obtain ⟨a, a', rfl, rfl, ha⟩ := h.one hl
    refine .ok (.withAll ha fun β' _ vs vs' hvs => ?_)
    refine (Except.Alike.mapM hvs fun v v' hv => expectArray_alike (.some hv)).bind ?_
    intro arrays arrays' harrays
    exact Reply.array_like (rel_flatten harrays)
  | arrayForEach =>
    obtain ⟨a, f, a', f', rfl, rfl, ha, hf⟩ := h.two hl
    refine .ok (.withArray (.cons ha (.cons hf .nil)) fun β' hβ ms ms' xs xs' hms hxs => ?_)
    refine (expectFunction_alike (hxs.joined 1)).bind fun f f' hf => ?_
    refine .ok (.applyAll hf (hc.mono hβ) (rel_map ?_ hms) fun β'' _ ss ss' hss => ?_)
    · exact fun s s' hs => .cons (.reader hs) .nil
    · exact .singleton (Value.alike_array.2 hss)
  | arrayFilter => exact arrayFilter_respects hc h hl
  | arrayFoldLeft =>
    obtain ⟨a, z, f, a', z', f', rfl, rfl, ha, hz, hf⟩ := h.three hl
    refine .ok (.withFirsts (.cons ha (.cons hf .nil)) fun β' hβ xs xs' hxs => ?_)
    refine (expectFunction_alike (hxs.joined 1)).bind fun f f' hf => ?_
    refine (expectArray_alike hxs.joined_head).bind fun ms ms' hms => ?_
    exact .ok (Members.foldLeft_like hf (hc.mono hβ) (hz.mono hβ) hms)
  | arrayFoldRight =>
    obtain ⟨a, z, f, a', z', f', rfl, rfl, ha, hz, hf⟩ := h.three hl
    refine .ok (.withFirsts (.cons ha (.cons hf .nil)) fun β' hβ xs xs' hxs => ?_)
    refine (expectFunction_alike (hxs.joined 1)).bind fun f f' hf => ?_
    refine (expectArray_alike hxs.joined_head).bind fun ms ms' hms => ?_
    exact .ok (Members.foldRight_like hf (hc.mono hβ) (hz.mono hβ) (rel_reverse hms))
  | arrayForEachPair => exact arrayForEachPair_respects hc h hl
  | arraySort =>
    obtain ⟨a, a', rfl, rfl, ha⟩ := h.one hl
    refine .ok (.withArray (.cons ha .nil) fun β' _ ms ms' _ _ hms _ => ?_)
    refine .ok (Members.withKeys_like access hms fun β'' _ keyed keyed' hkeyed => .ofExcept ?_)
    exact (Members.sort_alike hkeyed).bind fun ss ss' hss => .ok (.singleton (Value.alike_array.2 hss))
  | arrayFlatten =>
    obtain ⟨a, a', rfl, rfl, ha⟩ := h.one hl
    exact .ok (.flatten ha)
  | cast target => exact cast_respects target hc h hl

end Builtin

/-! ## Host functions and calls -/

theorem Behaviour.run_like (b : Behaviour) {c c' : CallContext} {ps ps' : List Producer}
    (hc : c.Alike β c') (h : Forall₂ (Producer.Like β) ps ps') :
    Except.Alike (Producer.Like β) (b.run c ps) (b.run c' ps') := by
  cases b with
  | concatenate => exact .ok (.concat h)
  | reverse => exact .ok (.concat (rel_reverse h))
  | ignore => exact .ok .done
  | typeNames =>
    refine .ok (.mapItems (.concat h) fun β' _ v v' hv => ?_)
    rw [hv.typeLabel]
    exact .ok (.atomic _)
  | contextItem =>
    have hi := hc.context.item
    dsimp only [run]
    generalize c.context.item = x, c'.context.item = x' at hi
    cases hi with
    | some hv => exact .ok (.singleton hv)
    | none => exact .ok .done
  | raise e => exact .error e

namespace Function

theorem openParameters_eq {slots slots' : List (Option Shared)}
    (h : Forall₂ (Option.Rel (Shared.Alike ρ)) slots slots') (types : List SequenceType) :
    openParameters slots types = openParameters slots' types := by
  induction h generalizing types with
  | nil => rfl
  | cons hs _ ih =>
    cases types with
    | nil => cases hs <;> rfl
    | cons t ts =>
      cases hs with
      | some _ => exact ih ts
      | none => exact congrArg (t :: ·) (ih ts)

theorem Alike.signature {f f' : Function} : f.Alike ρ f' → f.signature = f'.signature
  | .builtin _ | .extension _ | .entryOf _ _ _ | .memberOf _ _ => rfl
  | .bound hf hl ho hs => by
    have hslots := (alike_bound.1 (.bound hf hl ho hs)).2
    simp only [Function.signature, hf.signature, openParameters_eq hslots]

theorem fill_like {slots slots' : List (Option Shared)} {ps ps' : List Producer}
    (hs : Forall₂ (Option.Rel (Shared.Alike (β .known))) slots slots')
    (h : Forall₂ (Producer.Like β) ps ps') :
    Except.Alike (Forall₂ (Producer.Like β)) (fill slots ps) (fill slots' ps') := by
  induction hs generalizing ps ps' with
  | nil => exact .ok .nil
  | cons hx _ ih =>
    cases hx with
    | some hs => exact (ih h).bind fun _ _ hrest => .ok (.cons (.reader hs) hrest)
    | none =>
      cases h with
      | nil => exact .error _
      | cons hp h => exact (ih h).bind fun _ _ hrest => .ok (.cons hp hrest)

theorem soleKey_eq {vs vs' : List Value} (h : Forall₂ (Value.Alike ρ) vs vs') :
    soleKey vs = soleKey vs' := by
  cases h with
  | nil => rfl
  | cons hv h =>
    cases h with
    | nil => cases hv <;> rfl
    | cons _ _ => cases hv <;> rfl

/-- What the arguments are checked for before anything is done with them. -/
theorem checked_like {f f' : Function} {c c' : CallContext} {ps ps' : List Producer}
    {body body' : List Producer → Reply} (hf : f.signature = f'.signature) (hc : c.Alike β c')
    (h : Forall₂ (Producer.Like β) ps ps')
    (hbody : ∀ qs qs', Forall₂ (Producer.Like β) qs qs' → qs.length = f.arity →
      Except.Alike (Producer.Like β) (body qs) (body' qs')) :
    Except.Alike (Producer.Like β)
      (if ps.length ≠ f.arity then .error (f.wrongArity ps.length)
        else do body (← convertArguments c.access f.label f.signature.parameters ps))
      (if ps'.length ≠ f'.arity then .error (f'.wrongArity ps'.length)
        else do body' (← convertArguments c'.access f'.label f'.signature.parameters ps')) := by
  have harity : f'.arity = f.arity := by rw [arity, arity, hf]
  have hlabel : f'.label = f.label := by rw [label, label, hf]
  by_cases hn : ps.length ≠ f.arity
  · rw [if_pos hn, if_pos (by rwa [← h.length_eq, harity]), wrongArity, wrongArity, hlabel, harity,
      h.length_eq]
    exact .error _
  · rw [if_neg hn, if_neg (by rwa [← h.length_eq, harity]), hlabel, ← hf, ← hc.access]
    have hconvert := convertArguments_like h c.access f.label f.signature.parameters
    generalize hx : convertArguments _ _ _ ps = x, convertArguments _ _ _ ps' = x' at hconvert
    cases hconvert with
    | ok hqs => exact hbody _ _ hqs (length_of_convertArguments hx)
    | error e => exact .error e

theorem soleArgument_like {ps ps' : List Producer} {next next' : Atomic → Reply}
    (h : Forall₂ (Producer.Like β) ps ps')
    (hk : ∀ β', β ≤ β' → ∀ a, Except.Alike (Producer.Like β') (next a) (next' a)) :
    Except.Alike (Producer.Like β) (invoke.withAll' ps next) (invoke.withAll' ps' next') := by
  cases h with
  | nil => exact .error _
  | cons hp h =>
    cases h with
    | nil =>
      refine .ok (.withAll hp fun β' hβ vs vs' hvs => ?_)
      refine (Except.Alike.of_eq (soleKey_eq hvs)).bind ?_
      rintro a _ rfl
      exact hk β' hβ a
    | cons _ h =>
      simp only [invoke.withAll', List.length_cons, h.length_eq]
      exact .error _

/-- A call of like functions with like arguments gives like replies. -/
theorem invoke_like {f f' : Function} {c c' : CallContext} {ps ps' : List Producer}
    (hc : c.Alike β c') (h : Forall₂ (Producer.Like β) ps ps') :
    f.Alike (β .known) f' → Except.Alike (Producer.Like β) (f.invoke c ps) (f'.invoke c' ps')
  | .builtin b => by
    rw [invoke, invoke]
    exact checked_like rfl hc h fun qs qs' hqs hl => b.respects hc hqs hl
  | .extension e => by
    rw [invoke, invoke]
    exact checked_like rfl hc h fun qs qs' hqs _ => e.behaviour.run_like hc hqs
  | .bound hf hl ho hs => by
    have hbound := Alike.bound hf hl ho hs
    rw [invoke, invoke]
    refine checked_like hbound.signature hc h fun qs qs' hqs _ => ?_
    refine (fill_like (alike_bound.1 hbound).2 hqs).bind fun rs rs' hrs => ?_
    exact invoke_like hc hrs hf
  | .entryOf hl hk hs => by
    rw [invoke, invoke]
    refine checked_like rfl hc h fun qs qs' hqs _ => soleArgument_like hqs fun β' hβ key => ?_
    have hes := alike_entryOf.1 (.entryOf hl hk hs)
    exact .ok (lookUpKey_like (hes.imp fun _ _ h => ⟨h.1, h.2.mono (hβ .known)⟩) key)
  | .memberOf hl hs => by
    rw [invoke, invoke]
    refine checked_like rfl hc h fun qs qs' hqs _ => soleArgument_like hqs fun β' hβ position => ?_
    have hms := (alike_memberOf.1 (.memberOf hl hs)).imp fun _ _ h => h.mono (hβ .known)
    refine (Except.Alike.of_eq rfl).bind ?_
    rintro i _ rfl
    exact (Members.get_alike hms i).bind fun s s' hs => .ok (.reader hs)

end Function

end XPath
