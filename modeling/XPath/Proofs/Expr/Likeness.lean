import XPath.Expr.Evaluate
import XPath.Proofs.Library.Replies

/-!
# Expressions in like contexts

An expression evaluated in like contexts gives like replies (`Expr.evaluate_like`): what it takes from
a context it hands on, or looks at no further than at what is the same in both. Filters are the one
place where a cell does not get into values (`Meaning.filterEach_like`).
-/

namespace XPath

open List

variable {ρ ρ' : Matching} {β β' β₀ : Scope}

/-! ## Contexts -/

namespace Context.Alike

variable {c c' : Context}

theorem lookup (hc : c.Alike β c') (name : ExpandedName) :
    Option.Rel (Shared.Alike (β .known)) (c.lookup name) (c'.lookup name) := by
  have scope {bound bound' : Bindings}
      (h : Forall₂ (fun x y => x.1 = y.1 ∧ x.2.Alike (β .known) y.2) bound bound') :
      Option.Rel (Shared.Alike (β .known)) (bound.lookup name) (bound'.lookup name) := by
    induction h with
    | nil => exact .none
    | @cons x y _ _ hxy _ ih =>
      obtain ⟨key, s⟩ := x
      obtain ⟨_, s'⟩ := y
      obtain ⟨rfl, hs⟩ := hxy
      rw [List.lookup_cons, List.lookup_cons]
      dsimp only
      cases name == key with
      | true => exact .some hs
      | false => exact ih
  have hscopes := hc.scopes
  unfold Context.lookup
  generalize c.scopes = scopes, c'.scopes = scopes' at hscopes
  induction hscopes with
  | nil => exact .none
  | @cons bound bound' _ _ h _ ih =>
    have hb := scope h
    rw [findSome?_cons, findSome?_cons]
    generalize bound.lookup name = x, bound'.lookup name = x' at hb
    cases hb with
    | some hs => exact .some hs
    | none => exact ih

theorem withFocus (hc : c.Alike β c') {v v' : Value} {s s' : Shared} (position : Nat)
    (hv : v.Alike (β .known) v') (hs : β.Measurable s s') :
    (c.withFocus position v s).Alike β (c'.withFocus position v' s') where
  item := .some hv
  position := rfl
  sequence := .some hs
  scopes := .cons .nil hc.scopes

theorem focusedOn (hc : c.Alike β c') {v v' : Value} (hv : v.Alike (β .known) v') :
    (c.focusedOn v).Alike β (c'.focusedOn v') := hc.withFocus 1 hv (.listed (.cons hv .nil))

end Context.Alike

/-- Without variables and focus there is nothing to differ in. -/
theorem Context.empty_alike : Context.empty.Alike β .empty where
  item := .none
  position := rfl
  sequence := .none
  scopes := .cons .nil .nil

/-- In like contexts the meaning gives like replies, whatever other cells are matched by then. -/
def Meaning.Respects (β₀ : Scope) (m : Meaning) : Prop :=
  ∀ β, β₀ ≤ β → ∀ c c' : Context, c.Alike β c' → ∀ access,
    Except.Alike (Producer.Like β) (m c access) (m c' access)

/-! ## Steps along an axis -/

namespace Axis

variable {access : Access} {keep : Node → Bool}

theorem query_like {q : Query} {k k' : q.Answer → Producer} (hk : ∀ a, (k a).Like β (k' a)) :
    (query access q k).Like β (query access q k') := by
  cases access with
  | live => exact .ask hk
  | detached => exact .fail

theorem emitAll_like (nodes : List Node) {rest rest' : Producer} (h : rest.Like β rest') :
    (emitAll keep nodes rest).Like β (emitAll keep nodes rest') := by
  unfold emitAll
  induction nodes with
  | nil => exact h
  | cons n nodes ih =>
    rw [foldr_cons, foldr_cons]
    split
    · exact .emit (.node n) ih
    · exact ih

theorem below_like (fuel : Nat) (n : Node) {rest rest' : Unit → Producer}
    (h : (rest ()).Like β (rest' ())) :
    (below access keep fuel n rest).Like β (below access keep fuel n rest') := by
  induction fuel generalizing n rest rest' with
  | zero => exact h
  | succ fuel ih =>
    rw [below, below]
    split
    · refine query_like fun children => ?_
      induction children with
      | nil => exact h
      | cons c children ihc =>
        rw [foldr_cons, foldr_cons]
        split
        · exact .emit (.node c) (ih c ihc)
        · exact ih c ihc
    · exact h

theorem above_like (fuel : Nat) (n : Node) :
    (above access keep fuel n).Like β (above access keep fuel n) := by
  induction fuel generalizing n with
  | zero => exact .done
  | succ fuel ih =>
    rw [above]
    refine query_like fun p => ?_
    cases p with
    | none => exact .done
    | some p =>
      dsimp only
      split
      · exact .emit (.node p) (ih p)
      · exact ih p

theorem siblings_like (following : Bool) (n : Node) :
    (siblings access keep following n).Like β (siblings access keep following n) := by
  unfold siblings
  split
  · exact .done
  refine query_like fun p => ?_
  split
  · exact .done
  refine query_like fun children => ?_
  split
  · exact .fail
  · exact emitAll_like _ .done

/-- Nodes refer to no cells. -/
theorem walk_like (axis : Axis) (access : Access) (test : NodeTest) (n : Node) :
    (axis.walk access test n).Like β (axis.walk access test n) := by
  cases axis with
  | self => exact emitAll_like _ .done
  | child =>
    dsimp only [walk]
    split
    · exact query_like fun children => emitAll_like _ .done
    · exact .done
  | «attribute» =>
    dsimp only [walk]
    split
    · exact query_like fun attributes => emitAll_like _ .done
    · exact .done
  | parent => exact query_like fun p => emitAll_like _ .done
  | descendant => exact below_like _ n .done
  | descendantOrSelf => exact emitAll_like _ (below_like _ n .done)
  | ancestor => exact above_like _ n
  | ancestorOrSelf => exact emitAll_like _ (above_like _ n)
  | followingSibling => exact siblings_like true n
  | precedingSibling => exact siblings_like false n

end Axis

/-! ## Operators -/

namespace Meaning

variable {m left right : Meaning} {ms : List Meaning} {operands : List Operand}

theorem Respects.deferred (hm : m.Respects β₀) (hβ : β₀ ≤ β) {c c' : Context} (hc : c.Alike β c')
    (access : Access) :
    (Producer.deferred fun _ => m c access).Like β (.deferred fun _ => m c' access) :=
  .deferred (hm β hβ c c' hc access)

theorem sequence_respects (h : ∀ m ∈ ms, m.Respects β₀) : (sequence ms).Respects β₀ := by
  intro β hβ c c' hc access
  refine .ok (.concat ?_)
  induction ms with
  | nil => exact .nil
  | cons m ms ih =>
    exact .cons ((h m mem_cons_self).deferred hβ hc access) (ih fun m hm => h m (mem_cons_of_mem _ hm))

theorem firstDeciding_like (deciding : Bool) (h : ∀ m ∈ ms, m.Respects β₀) (hβ : β₀ ≤ β)
    {c c' : Context} (hc : c.Alike β c') (access : Access) :
    (firstDeciding deciding c access ms).Like β (firstDeciding deciding c' access ms) := by
  induction ms generalizing β with
  | nil => exact .atomic _
  | cons m ms ih =>
    refine .truth ((h m mem_cons_self).deferred hβ hc access) fun β' hβ' b => ?_
    split
    · exact .atomic _
    · exact ih (fun m hm => h m (mem_cons_of_mem _ hm)) (hβ.trans hβ') (hc.mono hβ')

theorem soleOperand_eq (operator : String) {vs vs' : List Value} (h : Forall₂ (Value.Alike ρ) vs vs') :
    soleOperand operator vs = soleOperand operator vs' := by
  cases h with
  | nil => rfl
  | cons hv hrest =>
    cases hrest with
    | nil => cases hv <;> rfl
    | cons hw hrest =>
      simp only [soleOperand, length_cons, hrest.length_eq]

/-- An operand is atomized before anything else is done with it. -/
theorem Respects.operand (hm : m.Respects β₀) (hβ : β₀ ≤ β) {c c' : Context} (hc : c.Alike β c')
    (access : Access) (operator : String) {next next' : Option Atomic → Reply}
    (hk : ∀ β', β ≤ β' → ∀ a, Except.Alike (Producer.Like β') (next a) (next' a)) :
    Except.Alike (Producer.Like β)
      (do
        let items ← m c access
        return withAll (Producer.atomize access items) fun items => do
          next (← soleOperand operator items))
      (do
        let items ← m c' access
        return withAll (Producer.atomize access items) fun items => do
          next' (← soleOperand operator items)) := by
  refine (hm β hβ c c' hc access).bind fun p p' hp => ?_
  refine .ok (.withAll (.atomize access hp) fun β' hβ' vs vs' hvs => ?_)
  refine (Except.Alike.of_eq (soleOperand_eq operator hvs)).bind ?_
  rintro a _ rfl
  exact hk β' hβ' a

theorem signed_respects (sign : Atomic.Sign) (hm : m.Respects β₀) : (signed sign m).Respects β₀ := by
  intro β hβ c c' hc access
  refine hm.operand hβ hc access "unary" fun β' _ a => ?_
  cases a with
  | none => exact .ok .done
  | some a =>
    refine (Except.Alike.of_eq rfl).bind ?_
    rintro b _ rfl
    exact .ok (.atomic b)

theorem arithmetic_respects (op : Atomic.Operator) (hl : left.Respects β₀)
    (hr : right.Respects β₀) : (arithmetic op left right).Respects β₀ := by
  intro β hβ c c' hc access
  refine hl.operand hβ hc access op.label fun β' hβ' a => ?_
  cases a with
  | none => exact .ok .done
  | some a =>
    refine (Except.Alike.of_eq rfl).bind ?_
    rintro a _ rfl
    refine hr.operand (hβ.trans hβ') (hc.mono hβ') access op.label fun β'' _ b => ?_
    cases b with
    | none => exact .ok .done
    | some b =>
      refine (Except.Alike.of_eq rfl).bind ?_
      rintro b _ rfl
      refine (Except.Alike.of_eq rfl).bind ?_
      rintro r _ rfl
      exact .ok (.atomic r)

theorem comparison_respects (op : Atomic.Relation) (hl : left.Respects β₀)
    (hr : right.Respects β₀) : (comparison op left right).Respects β₀ := by
  intro β hβ c c' hc access
  refine (hl β hβ c c' hc access).bind fun p p' hp => ?_
  refine .ok (.withAll (.atomize access hp) fun β' hβ' vs vs' hvs => ?_)
  refine (hr β' (hβ.trans hβ') c c' (hc.mono hβ') access).bind fun q q' hq => ?_
  refine .ok (.withAll (.atomize access hq) fun β'' _ ws ws' hws => ?_)
  rw [Value.Alike.atomics hvs, Value.Alike.atomics hws]
  refine (Except.Alike.of_eq rfl).bind ?_
  rintro related _ rfl
  exact .ok (.atomic _)

/-! ## Filters -/

theorem step_verdict {kept kept' : List Value} {v v' : Value}
    (hkept : Forall₂ (Value.Alike ρ) kept kept') (hv : v.Alike ρ v') :
    (Verdict.step kept v).Alike ρ (Verdict.step kept' v') := by
  have hempty : kept.isEmpty = kept'.isEmpty := by cases hkept <;> rfl
  have hdecided : Verdict.isDecidedBy v = Verdict.isDecidedBy v' := by cases hv <;> rfl
  rw [Verdict.step, Verdict.step, hempty, hdecided]
  split
  · exact .more (.cons hv .nil)
  · exact .enough (.cons hv hkept)

theorem verdict_eq {vs vs' : List Value} (h : Forall₂ (Value.Alike ρ) vs vs') :
    Verdict.ofItems vs = Verdict.ofItems vs' := by
  have ht := Value.Alike.truthOf h
  cases h with
  | nil => rfl
  | cons hv hrest => cases hv <;> simp only [Verdict.ofItems, ht]

/-- What a verdict leads to does not depend on the cells that the predicate knows. -/
theorem verdict_alike (predicate : Bool) {τ : Ties} {p p' : Producer}
    {next next' : Verdict → Producer} (hp : p.Alike (τ.sourced predicate) p')
    (hk : ∀ τ', τ ≤ τ' → ∀ verdict, (next verdict).Alike τ' (next' verdict)) :
    (Verdict.read p next).Alike τ (Verdict.read p' next') := by
  apply Producer.Alike.gather predicate hp .nil
  · intro τ' _ _ kept kept' v v' hkept hv
    exact step_verdict hkept hv
  · intro τ' hτ kept kept' hkept
    rw [verdict_eq (rel_reverse hkept)]
    split
    · exact hk τ' hτ _
    · exact .fail

theorem atPosition_like {p p' : Producer} (hp : p.Like β p') (place : Option Int) :
    (atPosition p place).Like β (atPosition p' place) := by
  unfold atPosition
  split
  · apply Producer.Like.gather hp
    · intro β' _ i _ _ v v' _ hv
      split
      · exact .enough (.cons hv .nil)
      · exact .more .nil
    · exact fun β' _ kept kept' hkept => .ofList hkept
  · exact .done

theorem filterConstant_like {p p' q q' : Producer} (hp : p.Like β p') (hq : q.Like β q') :
    (filterConstant p q).Like β (filterConstant p' q') := by
  apply verdict_alike false hq
  intro τ' hτ verdict
  have hp' := hp.mono hτ.1
  cases verdict with
  | position place => exact (atPosition_like hp' place).alike
  | truth b =>
    cases b
    · exact .done
    · exact hp'.alike

/-- The sequence that is filtered gets into a cell that only the filter reads, and the predicate is
the only one to ask for its length. -/
theorem filterEach_like {p p' : Producer} (hp : p.Like β p') (hm : m.Respects β₀) (hβ : β₀ ≤ β)
    {c c' : Context} (hc : c.Alike β c') (access : Access) :
    (filterEach p m c access).Like β (filterEach p' m c' access) := by
  apply Producer.Alike.shareFocus hp
  intro τ hτ a b howned hmeasured
  refine .forEach (.call (.read (.owned howned))) ?_ fun _ => .done
  intro τ' hτ' i v v' hv
  have hscope : β ≤ τ'.inner := (hτ.trans hτ').1.trans τ'.le
  have hfocus := (hc.mono hscope).withFocus (i + 1) (hv.mono (τ'.le .known))
    (.cell (hτ'.2.2.1 .measured _ _ hmeasured))
  apply verdict_alike true
  · exact (Producer.Like.ofExcept (hm _ (hβ.trans hscope) _ _ hfocus access)).alike (τ := τ'.inside)
  · intro τ'' hτ'' verdict
    split
    · exact .emit (hv.mono (hτ''.1 .known)) .done
    · exact .done

theorem filter_respects {selector predicate : Operand} (hs : selector.meaning.Respects β₀)
    (hp : predicate.meaning.Respects β₀) : (filter selector predicate).Respects β₀ := by
  intro β hβ c c' hc access
  refine (hs β hβ c c' hc access).bind fun p p' hsel => ?_
  split
  · exact (hp β hβ c c' hc access).bind fun q q' hq => .ok (filterConstant_like hsel hq)
  · exact .ok (filterEach_like hsel hp hβ hc access)

/-! ## Paths -/

theorem collect_alike {results results' items items' : List Value}
    (hr : Forall₂ (Value.Alike ρ) results results') (hi : Forall₂ (Value.Alike ρ) items items') :
    Forall₂ (Value.Alike ρ) (collect results items) (collect results' items') := by
  unfold collect
  induction hi generalizing results results' with
  | nil => exact hr
  | cons hv _ ih =>
    rw [foldl_cons, foldl_cons]
    apply ih
    have hsame (n : Node) : results.any (·.isSameNode n) = results'.any (·.isSameNode n) :=
      hr.any_eq fun _ _ h => h.isSameNode n
    cases hv with
    | node n =>
      dsimp only
      rw [hsame]
      split
      · exact hr
      · exact .cons (.node n) hr
    | atomic a => exact .cons (.atomic a) hr
    | map hl hk hs => exact .cons (.map hl hk hs) hr
    | array hl hs => exact .cons (.array hl hs) hr
    | function hf => exact .cons (.function hf) hr

theorem fromOrigins_like {step : Operand} (hstep : step.meaning.Respects β₀) (hβ : β₀ ≤ β)
    (access : Access) {results results' : List Value} {contexts contexts' : List (Except Error Context)}
    {next next' : List Value → Producer} (hr : Forall₂ (Value.Alike (β .known)) results results')
    (hc : Forall₂ (Except.Alike (Context.Alike β)) contexts contexts')
    (hk : ∀ β', β ≤ β' → ∀ vs vs', Forall₂ (Value.Alike (β' .known)) vs vs' →
      (next vs).Like β' (next' vs')) :
    (fromOrigins step access results contexts next).Like β
      (fromOrigins step access results' contexts' next') := by
  induction contexts generalizing β contexts' results results' next next' with
  | nil =>
    cases hc
    exact hk β le_rfl _ _ (rel_reverse hr)
  | cons context rest ih =>
    cases hc with
    | cons hcontext hrest =>
      cases hcontext with
      | error e => exact .fail
      | ok hc =>
        refine .drain (hstep.deferred hβ hc access) fun β' hβ' vs vs' hvs => ?_
        refine ih (hβ.trans hβ') (collect_alike (hr.imp fun _ _ h => h.mono (hβ' .known)) ?_)
          (hrest.imp fun _ _ h => h.imp fun _ _ h => h.mono hβ') fun β'' hβ'' => hk β'' (hβ'.trans hβ'')
        split
        · exact rel_reverse hvs
        · exact hvs

theorem origins_alike {c c' : Context} (hc : c.Alike β c') {vs vs' : List Value}
    (h : Forall₂ (Value.Alike (β .known)) vs vs') :
    Forall₂ (Except.Alike (Context.Alike β)) (origins c vs) (origins c' vs') := by
  refine rel_map ?_ h
  intro v v' hv
  dsimp only
  rw [hv.isNode]
  split
  · exact .ok (hc.focusedOn hv)
  · exact .error _

theorem arrange_like (step : Traits) (access : Access) (count : Nat) (peers : Bool)
    {vs vs' : List Value} {next next' : List Value → Producer}
    (h : Forall₂ (Value.Alike (β .known)) vs vs')
    (hk : ∀ vs vs', Forall₂ (Value.Alike (β .known)) vs vs' → (next vs).Like β (next' vs')) :
    (arrange step access count peers vs next).Like β (arrange step access count peers vs' next') := by
  have hnodes : vs.any Value.isNode = vs'.any Value.isNode := h.any_eq fun _ _ h => h.isNode
  have hothers : vs.any (!·.isNode) = vs'.any (!·.isNode) := h.any_eq fun _ _ h => by rw [h.isNode]
  simp only [arrange, hnodes, hothers, h.length_eq, Value.Alike.nodes h]
  split
  · split
    · exact .fail
    split
    · exact .perform access _ fun sorted => hk _ _ (Value.Alike.self_nodes sorted)
    · exact hk _ _ h
  · exact hk _ _ h

theorem steps_like {c c' : Context} (hc : c.Alike β c') (hβ : β₀ ≤ β) (access : Access) (peers : Bool)
    (ho : ∀ o ∈ operands, o.meaning.Respects β₀) {vs vs' : List Value}
    {contexts contexts' : List (Except Error Context)}
    (h : Forall₂ (Value.Alike (β .known)) vs vs')
    (hcs : Forall₂ (Except.Alike (Context.Alike β)) contexts contexts') :
    (steps c access peers operands vs contexts).Like β
      (steps c' access peers operands vs' contexts') := by
  induction operands generalizing β peers vs vs' contexts contexts' with
  | nil => exact .ofList h
  | cons step rest ih =>
    rw [steps, steps, hcs.length_eq]
    refine fromOrigins_like (ho step mem_cons_self) hβ access .nil hcs fun β' hβ' ws ws' hws => ?_
    refine arrange_like step.traits access _ peers hws fun xs xs' hxs => ?_
    have hc' := hc.mono hβ'
    exact ih hc' (hβ.trans hβ') _ (fun o h => ho o (mem_cons_of_mem _ h)) hxs (origins_alike hc' hxs)

theorem path_respects (ho : ∀ o ∈ operands, o.meaning.Respects β₀) :
    (path operands).Respects β₀ :=
  fun _ hβ _ _ hc access => .ok (steps_like hc hβ access true ho .nil (.cons (.ok hc) .nil))

/-! ## Constructors -/

theorem mapM_respects (h : ∀ m ∈ ms, m.Respects β₀) (hβ : β₀ ≤ β) {c c' : Context} (hc : c.Alike β c')
    (access : Access) : Except.Alike (Forall₂ (Producer.Like β)) (ms.mapM fun m => m c access)
      (ms.mapM fun m => m c' access) := by
  induction ms with
  | nil => exact .ok .nil
  | cons m ms ih =>
    rw [mapM_cons, mapM_cons]
    refine (h m mem_cons_self β hβ c c' hc access).bind fun p p' hp => ?_
    exact (ih fun m hm => h m (mem_cons_of_mem _ hm)).bind fun ps ps' hps => .ok (.cons hp hps)

theorem squareArray_respects (h : ∀ m ∈ ms, m.Respects β₀) : (squareArray ms).Respects β₀ := by
  intro β hβ c c' hc access
  refine (mapM_respects h hβ hc access).bind fun ps ps' hps => ?_
  exact .ok (.shareAll hps fun β' _ ss ss' hss => .singleton (Value.alike_array.2 hss))

theorem curlyArray_respects (h : ∀ m ∈ ms, m.Respects β₀) : (curlyArray ms).Respects β₀ := by
  intro β hβ c c' hc access
  cases ms with
  | nil => exact .ok (.singleton (Value.alike_array.2 .nil))
  | cons m ms =>
    refine (h m mem_cons_self β hβ c c' hc access).bind fun p p' hp => ?_
    refine .ok (.drain hp fun β' _ vs vs' hvs => .singleton (Value.alike_array.2 (rel_map ?_ hvs)))
    exact fun v v' hv => Shared.alike_listed.2 (.cons hv .nil)

theorem keyOf_like {p p' : Producer} (hp : p.Like β p') (access : Access) :
    (keyOf access p).Like β (keyOf access p') := by
  refine .withAll (.atomize access hp) fun β' _ vs vs' hvs => ?_
  cases hvs with
  | nil => exact .error _
  | cons hv hrest =>
    cases hrest with
    | nil => cases hv <;> first | exact .ok (.atomic _) | exact .error _
    | cons _ _ => cases hv <;> exact .error _

theorem entries_respects (h : ∀ m ∈ ms, m.Respects β₀) (hβ : β₀ ≤ β) {c c' : Context}
    (hc : c.Alike β c') (access : Access) :
    Except.Alike (Forall₂ fun x y => x.1.Like β y.1 ∧ x.2.Like β y.2) (entries c access ms)
      (entries c' access ms) := by
  induction ms using entries.induct with
  | case1 => exact .ok .nil
  | case2 m => exact .error _
  | case3 key value rest ih =>
    rw [entries, entries]
    refine (h key mem_cons_self β hβ c c' hc access).bind fun k k' hk => ?_
    refine (h value (mem_cons_of_mem _ mem_cons_self) β hβ c c' hc access).bind fun v v' hv => ?_
    refine (ih fun m hm => h m (mem_cons_of_mem _ (mem_cons_of_mem _ hm))).bind fun es es' hes => ?_
    exact .ok (.cons ⟨hk, hv⟩ hes)

theorem check_eq {es es' : Entries} (h : Forall₂ (Entries.Like ρ) es es') (seen : List Atomic) :
    es.check seen = es'.check seen := by
  induction h generalizing seen with
  | nil => rfl
  | @cons x y _ _ hxy _ ih =>
    obtain ⟨key, _⟩ := x
    obtain ⟨_, _⟩ := y
    obtain ⟨rfl, _⟩ := hxy
    simp only [Entries.check, ih]

theorem mapOf_alike {es es' : Entries} (h : Forall₂ (Entries.Like ρ) es es') :
    Except.Alike (Value.Alike ρ) (Value.mapOf es) (Value.mapOf es') := by
  rw [Value.mapOf, Value.mapOf, check_eq h]
  exact (Except.Alike.of_eq rfl).bind fun _ _ _ => .ok (Value.alike_map.2 h)

theorem map_respects (h : ∀ m ∈ ms, m.Respects β₀) : (map ms).Respects β₀ := by
  intro β hβ c c' hc access
  refine (entries_respects h hβ hc access).bind fun es es' hes => ?_
  refine .ok (.shareAll (rel_map (fun _ _ h => h.2) hes) fun β' hβ' ss ss' hss => ?_)
  refine .withAll (.concat (rel_map (fun _ _ h => keyOf_like (h.1.mono hβ') access) hes)) ?_
  intro β'' hβ'' keys keys' hkeys
  rw [Value.Alike.atomics hkeys]
  have hentries : Forall₂ (Entries.Like (β'' .known))
      ((keys'.filterMap Value.atomic?).zip ss) ((keys'.filterMap Value.atomic?).zip ss') :=
    (forall₂_same.2 fun a _ => rfl : Forall₂ (fun a b => a = b) _ _).zip
      (hss.imp fun _ _ h => h.mono (hβ'' .known))
  exact (mapOf_alike hentries).bind fun v v' hv => .ok (.singleton hv)

/-! ## Calls -/

theorem calledFunction_alike (slots : Nat) {vs vs' : List Value} (h : Forall₂ (Value.Alike ρ) vs vs') :
    Except.Alike (Function.Alike ρ) (calledFunction slots vs) (calledFunction slots vs') := by
  cases h with
  | nil => exact .error _
  | cons hv hrest =>
    cases hrest with
    | nil =>
      refine hv.callable.bind fun f f' hf => ?_
      have harity : f.arity = f'.arity := by rw [Function.arity, Function.arity, hf.signature]
      have hlabel : f.label = f'.label := by rw [Function.label, Function.label, hf.signature]
      rw [wrongSlots, wrongSlots, harity, hlabel]
      split
      · exact .ok hf
      · exact .error _
    | cons _ hrest =>
      simp only [calledFunction, length_cons, hrest.length_eq]
      exact .error _

theorem fillSlots_alike (slots : List Bool) {ss ss' : List Shared} (h : Forall₂ (Shared.Alike ρ) ss ss') :
    Forall₂ (Option.Rel (Shared.Alike ρ)) (fillSlots slots ss) (fillSlots slots ss') := by
  induction slots generalizing ss ss' with
  | nil => exact .nil
  | cons supplied slots ih =>
    cases supplied with
    | false => exact .cons .none (ih h)
    | true =>
      cases h with
      | nil => exact .cons .none (ih .nil)
      | cons hs h => exact .cons (.some hs) (ih h)

/-- The function is read before the arguments are evaluated. -/
theorem called_like {slots : List Bool} {c c' : Context} {access : Access} {ns : Namespaces}
    {arguments arguments' : Except Error (List Producer)} (hc : c.Alike β c')
    (hargs : ∀ {β'}, β ≤ β' → Except.Alike (Forall₂ (Producer.Like β')) arguments arguments')
    {p p' : Producer} (hp : p.Like β p') :
    (withAll p fun items => do
      let f ← calledFunction slots.length items
      let arguments ← arguments
      if slots.all (fun supplied => supplied) then f.invoke ⟨c, access, ns⟩ arguments
      else return Producer.shareAll arguments fun bound =>
        .singleton (.function (.bound f (fillSlots slots bound)))).Like β
    (withAll p' fun items => do
      let f ← calledFunction slots.length items
      let arguments ← arguments'
      if slots.all (fun supplied => supplied) then f.invoke ⟨c', access, ns⟩ arguments
      else return Producer.shareAll arguments fun bound =>
        .singleton (.function (.bound f (fillSlots slots bound)))) := by
  refine .withAll hp fun β' hβ' vs vs' hvs => ?_
  refine (calledFunction_alike slots.length hvs).bind fun f f' hf => ?_
  refine (hargs hβ').bind fun ps ps' hps => ?_
  split
  · exact Function.invoke_like ⟨hc.mono hβ', rfl, rfl⟩ hps hf
  · refine .ok (.shareAll hps fun β'' hβ'' ss ss' hss => .singleton (.function ?_))
    exact Function.alike_bound.2 ⟨hf.mono (hβ'' .known), fillSlots_alike slots hss⟩

theorem call_respects (static? : Option StaticContext) (slots : List Bool)
    (h : ∀ m ∈ ms, m.Respects β₀) : (call static? slots ms).Respects β₀ := by
  intro β hβ c c' hc access
  cases static? with
  | none => exact .error _
  | some static =>
    have hargs {β' : Scope} (hβ' : β ≤ β') : Except.Alike (Forall₂ (Producer.Like β'))
        ((ms.drop 1).mapM fun m => m c access) ((ms.drop 1).mapM fun m => m c' access) :=
      mapM_respects (fun m hm => h m (mem_of_mem_drop hm)) (hβ.trans hβ') (hc.mono hβ') access
    rcases ms with _ | ⟨function, ms⟩
    · refine Except.Alike.bind (.ok (Producer.Alike.done (τ := .of β))) fun p p' hp => ?_
      exact .ok (called_like hc hargs hp)
    · refine (h function mem_cons_self β hβ c c' hc access).bind fun p p' hp => ?_
      exact .ok (called_like hc hargs hp)

end Meaning

/-! ## Leaves and trees -/

/-- All functions refer to matched cells only. -/
def StaticContext.Within (ρ : Matching) (static : StaticContext) : Prop :=
  ∀ entry ∈ static.functions.entries, entry.2.2.Alike ρ entry.2.2

/-- The functions that are noted refer to matched cells only, and so does the cached value. -/
structure Notes.Within (ρ : Matching) (notes : Notes) : Prop where
  static : ∀ static ∈ notes.static?, static.Within ρ
  cached : ∀ items ∈ notes.cached?, Forall₂ (Value.Alike ρ) items items

def Leaf.Within (ρ : Matching) : Leaf → Prop
  | .literal v => v.Alike ρ v
  | _ => True

mutual

/-- All values in the tree refer to matched cells only. -/
def Expr.Within (ρ : Matching) : Expr → Prop
  | .leaf op notes => op.Within ρ ∧ notes.Within ρ
  | .signed _ notes e => notes.Within ρ ∧ e.Within ρ
  | .binary _ notes l r => notes.Within ρ ∧ l.Within ρ ∧ r.Within ρ
  | .nary _ notes es => notes.Within ρ ∧ Expr.AllWithin ρ es

def Expr.AllWithin (ρ : Matching) : List Expr → Prop
  | [] => True
  | e :: es => e.Within ρ ∧ Expr.AllWithin ρ es

end

theorem StaticContext.Within.mono (hρ : ρ ≤ ρ') {static : StaticContext} (h : static.Within ρ) :
    static.Within ρ' := fun entry he => (h entry he).mono hρ

theorem Notes.Within.mono (hρ : ρ ≤ ρ') {notes : Notes} (h : notes.Within ρ) : notes.Within ρ' where
  static static hs := (h.static static hs).mono hρ
  cached items hi := (h.cached items hi).imp fun _ _ h => h.mono hρ

theorem Leaf.Within.mono (hρ : ρ ≤ ρ') {op : Leaf} (h : op.Within ρ) : op.Within ρ' := by
  cases op with
  | literal v => exact Value.Alike.mono hρ h
  | _ => trivial

mutual

theorem Expr.Within.mono (hρ : ρ ≤ ρ') : ∀ {e : Expr}, e.Within ρ → e.Within ρ'
  | .leaf _ _, h => by
    rw [Within] at h ⊢
    exact ⟨h.1.mono hρ, h.2.mono hρ⟩
  | .signed _ _ _, h => by
    rw [Within] at h ⊢
    exact ⟨h.1.mono hρ, Expr.Within.mono hρ h.2⟩
  | .binary _ _ _ _, h => by
    rw [Within] at h ⊢
    exact ⟨h.1.mono hρ, Expr.Within.mono hρ h.2.1, Expr.Within.mono hρ h.2.2⟩
  | .nary _ _ _, h => by
    rw [Within] at h ⊢
    exact ⟨h.1.mono hρ, Expr.AllWithin.mono hρ h.2⟩

theorem Expr.AllWithin.mono (hρ : ρ ≤ ρ') : ∀ {es : List Expr}, AllWithin ρ es → AllWithin ρ' es
  | [], _ => by
    rw [AllWithin]
    trivial
  | _ :: _, h => by
    rw [AllWithin] at h ⊢
    exact ⟨Expr.Within.mono hρ h.1, Expr.AllWithin.mono hρ h.2⟩

end

/-- A cached value stands for any meaning. -/
theorem Notes.Within.respects {notes : Notes} {m : Meaning} (h : notes.Within (β₀ .known))
    (hm : m.Respects β₀) : Meaning.Respects β₀ (notes.recall m) := by
  unfold Notes.recall
  split
  next items hi =>
    intro β hβ c c' _ access
    exact .ok (.ofList ((h.cached items hi).imp fun _ _ h => h.mono (hβ .known)))
  · exact hm

theorem Leaf.meaning_respects {op : Leaf} {static? : Option StaticContext}
    (h : op.Within (β₀ .known)) (hs : ∀ static ∈ static?, static.Within (β₀ .known)) :
    Meaning.Respects β₀ (op.meaning static?) := by
  intro β hβ c c' hc access
  cases op with
  | literal v => exact .ok (.singleton (Value.Alike.mono (hβ .known) h))
  | contextItem =>
    have hi := hc.item
    dsimp only [Leaf.meaning]
    generalize c.item = x, c'.item = x' at hi
    cases hi with
    | some hv => exact .ok (.singleton hv)
    | none => exact .error _
  | variableRef name =>
    have hl := hc.lookup name
    dsimp only [Leaf.meaning]
    generalize c.lookup name = x, c'.lookup name = x' at hl
    cases hl with
    | some hs => exact .ok (.reader hs)
    | none => exact .error _
  | step axis test =>
    have hi := hc.item
    dsimp only [Leaf.meaning]
    generalize c.item = x, c'.item = x' at hi
    cases hi with
    | none => exact .error _
    | some hv =>
      have ht := hv.typeLabel
      cases hv with
      | node n => exact .ok (axis.walk_like access test n)
      | _ =>
        simp only [noNodeForAxis, ht]
        exact .error _
  | functionRef name arity =>
    cases static? with
    | none => exact .error _
    | some static =>
      dsimp only [Leaf.meaning]
      split
      next f hf =>
        obtain ⟨entry, he, rfl⟩ := Option.map_eq_some_iff.1 hf
        have hentry := hs static rfl entry (mem_of_find?_eq_some he)
        exact .ok (.singleton (.function (hentry.mono (hβ .known))))
      · exact .error _

namespace Expr

mutual

/-- In like contexts an expression gives like replies. -/
theorem evaluate_respects : ∀ {e : Expr}, e.Within (β₀ .known) → Meaning.Respects β₀ e.evaluate
  | .leaf op notes, h => by
    rw [Within] at h
    rw [evaluate]
    exact h.2.respects (Leaf.meaning_respects h.1 h.2.static)
  | .signed sign notes e, h => by
    rw [Within] at h
    rw [evaluate]
    exact h.1.respects (Meaning.signed_respects sign (evaluate_respects h.2))
  | .binary op notes l r, h => by
    rw [Within] at h
    rw [evaluate]
    have hl := evaluate_respects h.2.1
    have hr := evaluate_respects h.2.2
    apply h.1.respects
    cases op with
    | arithmetic op => exact Meaning.arithmetic_respects op hl hr
    | comparison op => exact Meaning.comparison_respects op hl hr
    | filter => exact Meaning.filter_respects hl hr
  | .nary op notes es, h => by
    rw [Within] at h
    rw [evaluate]
    have ho := operandsOf_respects h.2
    have hm : ∀ m ∈ (operandsOf es).map (·.meaning), m.Respects β₀ := by
      intro m hm
      obtain ⟨o, hmem, rfl⟩ := mem_map.1 hm
      exact ho o hmem
    apply h.1.respects
    cases op with
    | sequence => exact Meaning.sequence_respects hm
    | or => exact fun _ hβ _ _ hc access => .ok (Meaning.firstDeciding_like true hm hβ hc access)
    | and => exact fun _ hβ _ _ hc access => .ok (Meaning.firstDeciding_like false hm hβ hc access)
    | path => exact Meaning.path_respects ho
    | squareArray => exact Meaning.squareArray_respects hm
    | curlyArray => exact Meaning.curlyArray_respects hm
    | map => exact Meaning.map_respects hm
    | call slots => exact Meaning.call_respects notes.static? slots hm

theorem operandsOf_respects : ∀ {es : List Expr}, AllWithin (β₀ .known) es →
    ∀ o ∈ operandsOf es, o.meaning.Respects β₀
  | [], _, o, ho => by
    rw [operandsOf] at ho
    cases ho
  | e :: es, h, o, ho => by
    rw [AllWithin] at h
    rw [operandsOf] at ho
    rcases mem_cons.1 ho with rfl | ho
    · exact evaluate_respects h.1
    · exact operandsOf_respects h.2 o ho

end

end Expr

end XPath
