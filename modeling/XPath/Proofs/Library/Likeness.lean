import XPath.Proofs.Lazy.LikeProducers

/-!
# Functions on like arguments

Functions that are alike, called with like arguments in like contexts, give like replies.
-/

namespace List

variable {α β : Type} {R : α → β → Prop} {l : List α} {l' : List β}

theorem Forall₂.getElem? (h : Forall₂ R l l') (i : Nat) : Option.Rel R l[i]? l'[i]? := by
  induction h generalizing i with
  | nil => exact .none
  | cons hab _ ih =>
    cases i with
    | zero => exact .some hab
    | succ i => exact ih i

theorem Forall₂.set {a : α} {b : β} (h : Forall₂ R l l') (hab : R a b) (i : Nat) :
    Forall₂ R (l.set i a) (l'.set i b) := by
  induction h generalizing i with
  | nil => exact .nil
  | cons hcd h ih =>
    cases i with
    | zero => exact .cons hab h
    | succ i => exact .cons hcd (ih i)

theorem Forall₂.zipIdx (h : Forall₂ R l l') (k : Nat) :
    Forall₂ (fun x y => R x.1 y.1 ∧ x.2 = y.2) (l.zipIdx k) (l'.zipIdx k) := by
  induction h generalizing k with
  | nil => exact .nil
  | cons hab _ ih => exact .cons ⟨hab, rfl⟩ (ih (k + 1))

theorem Forall₂.joined {xs : List (Option α)} {ys : List (Option β)}
    (h : Forall₂ (Option.Rel R) xs ys) (i : Nat) : Option.Rel R xs[i]?.join ys[i]?.join := by
  have hi := h.getElem? i
  generalize xs[i]? = x, ys[i]? = y at hi
  cases hi with
  | some h => exact h
  | none => exact .none

theorem Forall₂.joined_head {xs : List (Option α)} {ys : List (Option β)}
    (h : Forall₂ (Option.Rel R) xs ys) : Option.Rel R xs.head?.join ys.head?.join := by
  cases h with
  | nil => exact .none
  | cons h _ => exact h

end List

namespace XPath

open List Producer

variable {ρ : Matching} {β β' : Scope}

/-! ## Expected items -/

section

variable {x x' : Option Value}

theorem unexpected_eq (h : Option.Rel (Value.Alike ρ) x x') (expected : String) :
    unexpected expected x = unexpected expected x' := by
  cases h with
  | some hv => rw [unexpected, unexpected, hv.typeLabel]
  | none => rfl

theorem expectArray_alike (h : Option.Rel (Value.Alike ρ) x x') :
    Except.Alike (Forall₂ (Shared.Alike ρ)) (expectArray x) (expectArray x') := by
  have hu := unexpected_eq h "array(*)"
  cases h with
  | none => exact .error _
  | some hv =>
    cases hv with
    | array hl hs => exact .ok (Value.alike_array.1 (.array hl hs))
    | _ => simp only [expectArray, hu]; exact .error _

theorem expectMap_alike (h : Option.Rel (Value.Alike ρ) x x') :
    Except.Alike (Forall₂ (Entries.Like ρ)) (expectMap x) (expectMap x') := by
  have hu := unexpected_eq h "map(*)"
  cases h with
  | none => exact .error _
  | some hv =>
    cases hv with
    | map hl hk hs => exact .ok (Value.alike_map.1 (.map hl hk hs))
    | _ => simp only [expectMap, hu]; exact .error _

theorem expectAtomic_eq (h : Option.Rel (Value.Alike ρ) x x') : expectAtomic x = expectAtomic x' := by
  have hu := unexpected_eq h "xs:anyAtomicType"
  cases h with
  | none => rfl
  | some hv => cases hv <;> simp only [expectAtomic, hu]

theorem expectInteger_eq (h : Option.Rel (Value.Alike ρ) x x') :
    expectInteger x = expectInteger x' := by
  rw [expectInteger, expectInteger, expectAtomic_eq h]

theorem expectNode_eq (h : Option.Rel (Value.Alike ρ) x x') : expectNode x = expectNode x' := by
  have hu := unexpected_eq h "node()"
  cases h with
  | none => rfl
  | some hv => cases hv <;> simp only [expectNode, hu]

theorem expectFunction_alike (h : Option.Rel (Value.Alike ρ) x x') :
    Except.Alike (Function.Alike ρ) (expectFunction x) (expectFunction x') := by
  cases h with
  | none => exact .error _
  | some hv => exact hv.callable

end

/-! ## Arrays -/

namespace Members

variable {ms ms' : List Shared} {s s' : Shared}

theorem get_alike (h : Forall₂ (Shared.Alike ρ) ms ms') (position : Int) :
    Except.Alike (Shared.Alike ρ) (get ms position) (get ms' position) := by
  rw [get, get, h.length_eq]
  apply (Except.Alike.of_eq rfl).bind
  rintro i _ rfl
  have hi := h.getElem? i
  generalize ms[i]? = x, ms'[i]? = y at hi
  cases hi with
  | some h => exact .ok h
  | none => exact .error _

theorem put_alike (h : Forall₂ (Shared.Alike ρ) ms ms') (hs : s.Alike ρ s') (position : Int) :
    Except.Alike (Forall₂ (Shared.Alike ρ)) (put ms position s) (put ms' position s') := by
  rw [put, put, h.length_eq]
  apply (Except.Alike.of_eq rfl).bind
  rintro i _ rfl
  exact .ok (h.set hs i)

theorem insertBefore_alike (h : Forall₂ (Shared.Alike ρ) ms ms') (hs : s.Alike ρ s')
    (position : Int) : Except.Alike (Forall₂ (Shared.Alike ρ)) (insertBefore ms position s)
      (insertBefore ms' position s') := by
  rw [insertBefore, insertBefore, h.length_eq]
  split
  · exact .ok (rel_append (forall₂_take _ h) (.cons hs (forall₂_drop _ h)))
  · exact .error _

theorem remove_alike (h : Forall₂ (Shared.Alike ρ) ms ms') (positions : List Int) :
    Except.Alike (Forall₂ (Shared.Alike ρ)) (remove ms positions) (remove ms' positions) := by
  rw [remove, remove, h.length_eq]
  apply (Except.Alike.of_eq rfl).bind
  rintro indexes _ rfl
  apply Except.Alike.ok
  refine rel_map (fun _ _ h => h.1) (rel_filter ?_ (h.zipIdx 0))
  rintro ⟨_, i⟩ ⟨_, _⟩ ⟨_, rfl⟩
  rfl

theorem subarray_alike (h : Forall₂ (Shared.Alike ρ) ms ms') (start length : Int) :
    Except.Alike (Forall₂ (Shared.Alike ρ)) (subarray ms start length)
      (subarray ms' start length) := by
  simp only [subarray, h.length_eq]
  split
  · exact .error _
  split
  · exact .error _
  split
  · exact .ok (forall₂_take _ (forall₂_drop _ h))
  · exact .error _

theorem subarrayFrom_alike (h : Forall₂ (Shared.Alike ρ) ms ms') (start : Int) :
    Except.Alike (Forall₂ (Shared.Alike ρ)) (subarrayFrom ms start) (subarrayFrom ms' start) := by
  rw [subarrayFrom, subarrayFrom, h.length_eq]
  exact subarray_alike h _ _

/-- The same keys, and members that are alike. -/
def Keyed.Like (ρ : Matching) (x y : Keyed) : Prop := x.1 = y.1 ∧ x.2.Alike ρ y.2

theorem insertSorted_alike {x x' : Keyed} {sorted sorted' : List Keyed} (hx : Keyed.Like ρ x x')
    (h : Forall₂ (Keyed.Like ρ) sorted sorted') (failure : Option Error) :
    (insertSorted x failure sorted).1 = (insertSorted x' failure sorted').1 ∧
      Forall₂ (Keyed.Like ρ) (insertSorted x failure sorted).2
        (insertSorted x' failure sorted').2 := by
  induction h with
  | nil => exact ⟨rfl, .cons hx .nil⟩
  | cons hy hrest ih =>
    simp only [insertSorted, hx.1, hy.1]
    split
    · exact ⟨ih.1, .cons hy ih.2⟩
    · exact ⟨rfl, .cons hx (.cons hy hrest)⟩
    · exact ⟨rfl, .cons hx (.cons hy hrest)⟩

theorem sortInto_alike {sorted sorted' keyed keyed' : List Keyed}
    (hs : Forall₂ (Keyed.Like ρ) sorted sorted') (h : Forall₂ (Keyed.Like ρ) keyed keyed')
    (failure : Option Error) :
    (sortInto failure sorted keyed).1 = (sortInto failure sorted' keyed').1 ∧
      Forall₂ (Keyed.Like ρ) (sortInto failure sorted keyed).2
        (sortInto failure sorted' keyed').2 := by
  induction h generalizing sorted sorted' failure with
  | nil => exact ⟨rfl, hs⟩
  | cons hx _ ih =>
    have hi := insertSorted_alike hx hs failure
    simp only [sortInto, hi.1]
    exact ih hi.2 _

theorem sort_alike {keyed keyed' : List Keyed} (h : Forall₂ (Keyed.Like ρ) keyed keyed') :
    Except.Alike (Forall₂ (Shared.Alike ρ)) (sort keyed) (sort keyed') := by
  have hs := sortInto_alike .nil h none
  rw [sort, sort]
  generalize sortInto none [] keyed = x, sortInto none [] keyed' = y at hs
  obtain ⟨failure, sorted⟩ := x
  obtain ⟨_, sorted'⟩ := y
  obtain ⟨rfl, hs⟩ := hs
  cases failure with
  | some e => exact .error e
  | none => exact .ok (rel_map (fun _ _ h => h.2) (rel_reverse hs))

end Members

/-! ## Arguments -/

namespace Producer.Like

variable {p p' : Producer} {ps ps' : List Producer}

theorem withFirsts {next next' : List (Option Value) → Reply} (h : Forall₂ (Producer.Like β) ps ps')
    (hk : ∀ β', β ≤ β' → ∀ xs xs', Forall₂ (Option.Rel (Value.Alike (β' .known))) xs xs' →
      Except.Alike (Producer.Like β') (next xs) (next' xs')) :
    (withFirsts ps next).Like β (withFirsts ps' next') :=
  firsts h fun β' hβ xs xs' hxs => ofExcept (hk β' hβ xs xs' hxs)

theorem withAll {next next' : List Value → Reply} (h : p.Like β p')
    (hk : ∀ β', β ≤ β' → ∀ vs vs', Forall₂ (Value.Alike (β' .known)) vs vs' →
      Except.Alike (Producer.Like β') (next vs) (next' vs')) :
    (withAll p next).Like β (withAll p' next') :=
  drain h fun β' hβ vs vs' hvs => ofExcept (hk β' hβ vs vs' hvs)

theorem applyAll {f f' : Function} {c c' : CallContext} {argss argss' : List (List Producer)}
    {next next' : List Shared → Producer} (hf : f.Alike (β .known) f') (hc : c.Alike β c')
    (h : Forall₂ (Forall₂ (Producer.Like β)) argss argss')
    (hk : ∀ β', β ≤ β' → ∀ ss ss', Forall₂ (Shared.Alike (β' .known)) ss ss' →
      (next ss).Like β' (next' ss')) :
    (applyAll f c argss next).Like β (applyAll f' c' argss' next') := by
  induction argss generalizing β argss' next next' with
  | nil =>
    cases h
    exact hk β le_rfl _ _ .nil
  | cons args argss ih =>
    cases h with
    | cons hargs hrest =>
      apply apply hf hc hargs
      intro β' hβ s s' hs
      apply ih (hf.mono (hβ .known)) (hc.mono hβ) (hrest.imp fun _ _ h => h.imp fun _ _ h => h.mono hβ)
      intro β'' hβ' ss ss' hss
      exact hk β'' (hβ.trans hβ') _ _ (.cons (hs.mono (hβ' .known)) hss)

end Producer.Like

namespace CallContext.Alike

variable {c c' : CallContext} (hc : c.Alike β c')

include hc

theorem contextItem (function : String) :
    Except.Alike (Value.Alike (β .known)) (c.contextItem function) (c'.contextItem function) := by
  have hi := hc.context.item
  unfold CallContext.contextItem
  generalize c.context.item = x, c'.context.item = x' at hi
  cases hi with
  | some hv => exact .ok hv
  | none => exact .error _

theorem contextNode (function : String) :
    Except.Alike (Producer.Like β) (c.contextNode function) (c'.contextNode function) := by
  refine (hc.contextItem function).bind fun v v' hv => ?_
  refine (Except.Alike.of_eq (expectNode_eq (.some hv))).bind fun _ _ _ => ?_
  exact .ok (.singleton hv)

end CallContext.Alike

/-! ## Conversion -/

theorem Value.Alike.convertTo {v v' : Value} (h : v.Alike ρ v') (type : SequenceType)
    (place : ParameterPlace) :
    Except.Alike (Value.Alike ρ) (v.convertTo type place) (v'.convertTo type place) := by
  have admitted {w w' : Value} (hw : w.Alike ρ w') : Except.Alike (Value.Alike ρ)
      (if type.itemType.admits w.itemType then .ok w else .error (place.wrongType type w))
      (if type.itemType.admits w'.itemType then .ok w' else .error (place.wrongType type w')) := by
    rw [ParameterPlace.wrongType, ParameterPlace.wrongType, hw.typeLabel, hw.itemType]
    split
    · exact .ok hw
    · exact .error _
  cases h with
  | atomic a =>
    unfold Value.convertTo
    split
    · split
      · split
        · exact .ok (.atomic _)
        · exact .error _
      · split
        · exact .ok (.atomic _)
        · exact .error _
    · exact admitted (.atomic a)
  | node n => exact admitted (.node n)
  | map hl hk hs => exact admitted (.map hl hk hs)
  | array hl hs => exact admitted (.array hl hs)
  | function hf => exact admitted (.function hf)

theorem Producer.Like.convert {p p' : Producer} (h : p.Like β p') (access : Access)
    (type : SequenceType) (place : ParameterPlace) :
    (p.convert access type place).Like β (p'.convert access type place) := by
  unfold Producer.convert
  split
  · exact h
  have hsource : (if type.isAtomic then Producer.atomize access p else p).Like β
      (if type.isAtomic then Producer.atomize access p' else p') := by
    split
    · exact h.atomize access
    · exact h
  have hfinish (count : Nat) {β' : Scope} {held held' : List Value}
      (hheld : Forall₂ (Value.Alike (β' .known)) held held') :
      (if type.occurrence.allows count then Producer.ofList held
        else Producer.fail (place.wrongCount type count)).Like β'
      (if type.occurrence.allows count then Producer.ofList held'
        else Producer.fail (place.wrongCount type count)) := by
    split
    · exact .ofList hheld
    · exact .fail
  dsimp only
  split
  · apply Producer.Like.gather hsource
    · intro β' _ i kept kept' v v' _ hv
      have hc := hv.convertTo type place
      generalize v.convertTo type place = x, v'.convertTo type place = x' at hc
      split
      · exact .fail
      · cases hc with
        | ok h => exact .more (.cons h .nil)
        | error e => exact .fail
    · intro β' _ held held' hheld
      rw [hheld.length_eq]
      exact hfinish _ hheld
  · apply Producer.Like.forEach hsource
    · intro β' _ _ v v' hv
      have hc := hv.convertTo type place
      generalize v.convertTo type place = x, v'.convertTo type place = x' at hc
      cases hc with
      | ok h => exact .singleton h
      | error e => exact .fail
    · intro count
      exact hfinish count .nil

theorem convertArguments_like {ps ps' : List Producer} (h : Forall₂ (Producer.Like β) ps ps')
    (access : Access) (function : String) (types : List SequenceType) :
    Except.Alike (Forall₂ (Producer.Like β)) (convertArguments access function types ps)
      (convertArguments access function types ps') := by
  rw [convertArguments, convertArguments, h.length_eq]
  split
  · apply Except.Alike.ok
    refine rel_map ?_ (((forall₂_same.2 fun t _ => rfl : Forall₂ (fun t t' => t = t') types types).zip
      h).zipIdx 0)
    rintro ⟨⟨type, p⟩, i⟩ ⟨⟨_, p'⟩, _⟩ ⟨⟨rfl, hp⟩, rfl⟩
    exact hp.convert access type ⟨function, i + 1⟩
  · exact .error _

theorem length_of_convertArguments {access : Access} {function : String} {types : List SequenceType}
    {ps qs : List Producer} (h : convertArguments access function types ps = .ok qs) :
    qs.length = types.length := by
  unfold convertArguments at h
  split at h
  next hl =>
    cases h
    simp [hl]
  · cases h

end XPath
