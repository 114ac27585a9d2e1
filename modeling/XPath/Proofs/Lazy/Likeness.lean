import Mathlib.Data.List.Forall2
import Mathlib.Data.Option.Basic
import Mathlib.Order.PropInstances
import XPath.Lazy.Machine

/-!
# Likeness

Two values are alike if they differ only in the cells that they refer to, and a matching says which
cell stands for which. Two producers are alike if they do the same with cells that stand for one
another and with values that are alike, whatever cells have come to be matched by then: so likeness is
kept when a matching grows (`Producer.Alike.mono`).

A producer refers to cells in several ways. Those that values may refer to are `known`. The sequence
that a filter goes through is kept in a cell that no value refers to: the filter itself draws from it
(`owned`), and within the predicate its length may be asked for (`measured`). What a predicate yields
is only looked at, so the cells that are known within it need not be known to the filter.
-/

theorem Option.Rel.imp {α β : Type} {R S : α → β → Prop} (h : ∀ a b, R a b → S a b) {x : Option α}
    {y : Option β} : Option.Rel R x y → Option.Rel S x y
  | .some hxy => .some (h _ _ hxy)
  | .none => .none

namespace XPath

/-- Which cells stand for which. -/
abbrev Matching := Nat → Nat → Prop

/-! ## Values -/

mutual

/-- The values are the same but for the cells that they refer to, and those are matched. -/
inductive Value.Alike (ρ : Matching) : Value → Value → Prop
  | atomic (a : Atomic) : Value.Alike ρ (.atomic a) (.atomic a)
  | node (n : Node) : Value.Alike ρ (.node n) (.node n)
  | map {es es' : Entries} : es.length = es'.length → (∀ {x y}, (x, y) ∈ es.zip es' → x.1 = y.1) →
      (∀ {x y}, (x, y) ∈ es.zip es' → Shared.Alike ρ x.2 y.2) → Value.Alike ρ (.map es) (.map es')
  | array {ms ms'} : ms.length = ms'.length → (∀ {x y}, (x, y) ∈ ms.zip ms' → Shared.Alike ρ x y) →
      Value.Alike ρ (.array ms) (.array ms')
  | function {f f'} : Function.Alike ρ f f' → Value.Alike ρ (.function f) (.function f')

inductive Shared.Alike (ρ : Matching) : Shared → Shared → Prop
  | listed {vs vs'} : vs.length = vs'.length → (∀ {x y}, (x, y) ∈ vs.zip vs' → Value.Alike ρ x y) →
      Shared.Alike ρ (.listed vs) (.listed vs')
  | cell {m n} : ρ m n → Shared.Alike ρ (.cell m) (.cell n)

inductive Function.Alike (ρ : Matching) : Function → Function → Prop
  | builtin (f : Builtin) : Function.Alike ρ (.builtin f) (.builtin f)
  | extension (f : Extension) : Function.Alike ρ (.extension f) (.extension f)
  | bound {f f' slots slots'} : Function.Alike ρ f f' → slots.length = slots'.length →
      (∀ {x y}, (x, y) ∈ slots.zip slots' → x.isSome = y.isSome) →
      (∀ {x y}, (some x, some y) ∈ slots.zip slots' → Shared.Alike ρ x y) →
      Function.Alike ρ (.bound f slots) (.bound f' slots')
  | entryOf {es es' : Entries} : es.length = es'.length →
      (∀ {x y}, (x, y) ∈ es.zip es' → x.1 = y.1) →
      (∀ {x y}, (x, y) ∈ es.zip es' → Shared.Alike ρ x.2 y.2) →
      Function.Alike ρ (.entryOf es) (.entryOf es')
  | memberOf {ms ms'} : ms.length = ms'.length →
      (∀ {x y}, (x, y) ∈ ms.zip ms' → Shared.Alike ρ x y) →
      Function.Alike ρ (.memberOf ms) (.memberOf ms')

end

variable {ρ ρ' : Matching}

mutual

theorem Value.Alike.mono (hρ : ρ ≤ ρ') {v v' : Value} : v.Alike ρ v' → v.Alike ρ' v'
  | .atomic a => .atomic a
  | .node n => .node n
  | .map hl hk hs => .map hl hk fun h => (hs h).mono hρ
  | .array hl hs => .array hl fun h => (hs h).mono hρ
  | .function hf => .function (hf.mono hρ)

theorem Shared.Alike.mono (hρ : ρ ≤ ρ') {s s' : Shared} : s.Alike ρ s' → s.Alike ρ' s'
  | .listed hl hv => .listed hl fun h => (hv h).mono hρ
  | .cell h => .cell (hρ _ _ h)

theorem Function.Alike.mono (hρ : ρ ≤ ρ') {f f' : Function} : f.Alike ρ f' → f.Alike ρ' f'
  | .builtin f => .builtin f
  | .extension f => .extension f
  | .bound hf hl ho hs => .bound (hf.mono hρ) hl ho fun h => (hs h).mono hρ
  | .entryOf hl hk hs => .entryOf hl hk fun h => (hs h).mono hρ
  | .memberOf hl hs => .memberOf hl fun h => (hs h).mono hρ

end

/-- An entry with the same key and a value that is alike. -/
def Entries.Like (ρ : Matching) (x y : Atomic × Shared) : Prop := x.1 = y.1 ∧ x.2.Alike ρ y.2

section

open List

theorem Shared.alike_listed {vs vs' : List Value} :
    (Shared.listed vs).Alike ρ (.listed vs') ↔ Forall₂ (Value.Alike ρ) vs vs' := by
  rw [forall₂_iff_zip]
  constructor
  · intro h
    cases h with
    | listed hl hv => exact ⟨hl, hv⟩
  · rintro ⟨hl, hv⟩
    exact .listed hl hv

theorem Value.alike_array {ms ms' : List Shared} :
    (Value.array ms).Alike ρ (.array ms') ↔ Forall₂ (Shared.Alike ρ) ms ms' := by
  rw [forall₂_iff_zip]
  constructor
  · intro h
    cases h with
    | array hl hs => exact ⟨hl, hs⟩
  · rintro ⟨hl, hs⟩
    exact .array hl hs

theorem Function.alike_memberOf {ms ms' : List Shared} :
    (Function.memberOf ms).Alike ρ (.memberOf ms') ↔ Forall₂ (Shared.Alike ρ) ms ms' := by
  rw [forall₂_iff_zip]
  constructor
  · intro h
    cases h with
    | memberOf hl hs => exact ⟨hl, hs⟩
  · rintro ⟨hl, hs⟩
    exact .memberOf hl hs

theorem Value.alike_map {es es' : Entries} :
    (Value.map es).Alike ρ (.map es') ↔ Forall₂ (Entries.Like ρ) es es' := by
  rw [forall₂_iff_zip]
  constructor
  · intro h
    cases h with
    | map hl hk hs => exact ⟨hl, fun h => ⟨hk h, hs h⟩⟩
  · rintro ⟨hl, hs⟩
    exact .map hl (fun h => (hs h).1) fun h => (hs h).2

theorem Function.alike_entryOf {es es' : Entries} :
    (Function.entryOf es).Alike ρ (.entryOf es') ↔ Forall₂ (Entries.Like ρ) es es' := by
  rw [forall₂_iff_zip]
  constructor
  · intro h
    cases h with
    | entryOf hl hk hs => exact ⟨hl, fun h => ⟨hk h, hs h⟩⟩
  · rintro ⟨hl, hs⟩
    exact .entryOf hl (fun h => (hs h).1) fun h => (hs h).2

theorem Function.alike_bound {f f' : Function} {slots slots' : List (Option Shared)} :
    (Function.bound f slots).Alike ρ (.bound f' slots') ↔
      f.Alike ρ f' ∧ Forall₂ (Option.Rel (Shared.Alike ρ)) slots slots' := by
  rw [forall₂_iff_zip]
  constructor
  · intro h
    cases h with
    | bound hf hl ho hs =>
      refine ⟨hf, hl, fun {x y} h => ?_⟩
      have hxy := ho h
      rcases x with _ | x <;> rcases y with _ | y
      · exact .none
      · cases hxy
      · cases hxy
      · exact .some (hs h)
  · rintro ⟨hf, hl, hs⟩
    refine .bound hf hl (fun h => ?_) fun h => ?_
    · cases hs h <;> rfl
    · cases hs h
      assumption

end

/-! ## Ties -/

/-- How cells are referred to by what has not been started yet. -/
inductive Bond where
  /-- Values may refer to the cell. -/
  | known
  /-- The length of the cell may be asked for. -/
  | measured

/-- The matched cells, for every bond. -/
abbrev Scope := Bond → Matching

/-- The matched cells that a producer depends on: on its own, and within the predicates of filters. -/
structure Ties where
  scope : Scope
  /-- Focus sequences of the filters that the producer is going through. -/
  owned : Matching
  inner : Scope
  innerOwned : Matching
  le : scope ≤ inner

/-- A context sequence of which the length may be asked for. -/
inductive Scope.Measurable (β : Scope) : Shared → Shared → Prop
  | listed {vs vs'} : List.Forall₂ (Value.Alike (β .known)) vs vs' →
      Scope.Measurable β (.listed vs) (.listed vs')
  | cell {m n} : β .measured m n → Scope.Measurable β (.cell m) (.cell n)

namespace Ties

instance : Preorder Ties where
  le τ τ' := τ.scope ≤ τ'.scope ∧ τ.owned ≤ τ'.owned ∧ τ.inner ≤ τ'.inner ∧
    τ.innerOwned ≤ τ'.innerOwned
  le_refl _ := ⟨le_rfl, le_rfl, le_rfl, le_rfl⟩
  le_trans _ _ _ h h' := ⟨h.1.trans h'.1, h.2.1.trans h'.2.1, h.2.2.1.trans h'.2.2.1,
    h.2.2.2.trans h'.2.2.2⟩

/-- The ties of what has not been started. -/
def of (β : Scope) : Ties := ⟨β, fun _ _ => False, β, fun _ _ => False, le_rfl⟩

/-- The ties within a predicate. -/
def inside (τ : Ties) : Ties := ⟨τ.inner, τ.innerOwned, τ.inner, τ.innerOwned, le_rfl⟩

/-- The ties of the source of a gathering, which may be a predicate. -/
def sourced (τ : Ties) (predicate : Bool) : Ties := if predicate then τ.inside else τ

/-- A shared sequence that may be read. -/
inductive Readable (τ : Ties) : Shared → Shared → Prop
  | known {s s'} : s.Alike (τ.scope .known) s' → Readable τ s s'
  | measured {m n} : τ.scope .measured m n → Readable τ (.cell m) (.cell n)
  | owned {m n} : τ.owned m n → Readable τ (.cell m) (.cell n)

variable {τ τ' : Ties} {β β' : Scope}

theorem of_mono (h : β ≤ β') : of β ≤ of β' := ⟨h, le_rfl, h, le_rfl⟩

theorem of_scope_le (τ : Ties) : of τ.scope ≤ τ :=
  ⟨le_rfl, fun _ _ => False.elim, τ.le, fun _ _ => False.elim⟩

theorem inside_mono (h : τ ≤ τ') : τ.inside ≤ τ'.inside := ⟨h.2.2.1, h.2.2.2, h.2.2.1, h.2.2.2⟩

theorem sourced_mono (h : τ ≤ τ') (b : Bool) : τ.sourced b ≤ τ'.sourced b := by
  cases b
  · exact h
  · exact inside_mono h

end Ties

/-! ## Producers -/

/-- One part of a comparison, alike. -/
inductive Goal.Alike (ρ : Matching) : Goal → Goal → Prop
  | items {a a' b b'} : a.Alike ρ a' → b.Alike ρ b' → Goal.Alike ρ (.items a b) (.items a' b')
  | members {a a' b b' i} : a.Alike ρ a' → b.Alike ρ b' →
      Goal.Alike ρ (.members a b i) (.members a' b' i)
  | differ : Goal.Alike ρ .differ .differ

inductive Call.Alike (τ : Ties) : Call → Call → Prop
  | read {m n i} : τ.Readable (.cell m) (.cell n) → Call.Alike τ (.read m i) (.read n i)
  | leaves {ms ms'} : List.Forall₂ (Shared.Alike (τ.scope .known)) ms ms' →
      Call.Alike τ (.leaves ms) (.leaves ms')
  | equal {access gs gs'} : List.Forall₂ (Goal.Alike (τ.scope .known)) gs gs' →
      Call.Alike τ (.equal access gs) (.equal access gs')

/-- What one more item means is alike. -/
inductive Gathering.Alike (ρ : Matching) : Gathering → Gathering → Prop
  | more {vs vs'} : List.Forall₂ (Value.Alike ρ) vs vs' → Gathering.Alike ρ (.more vs) (.more vs')
  | enough {vs vs'} : List.Forall₂ (Value.Alike ρ) vs vs' →
      Gathering.Alike ρ (.enough vs) (.enough vs')
  | fail {e} : Gathering.Alike ρ (.fail e) (.fail e)

/-- Contexts with like items and variables, and a context sequence that may be measured. -/
structure Context.Alike (β : Scope) (c c' : Context) : Prop where
  item : Option.Rel (Value.Alike (β .known)) c.item c'.item
  position : c.position = c'.position
  sequence : Option.Rel β.Measurable c.sequence c'.sequence
  scopes : List.Forall₂ (List.Forall₂ fun x y => x.1 = y.1 ∧ x.2.Alike (β .known) y.2)
    c.scopes c'.scopes

structure CallContext.Alike (β : Scope) (c c' : CallContext) : Prop where
  context : c.context.Alike β c'.context
  access : c.access = c'.access
  namespaces : c.namespaces = c'.namespaces

/-- The producers do alike with all that is alike, from the cells that the ties match on. -/
inductive Producer.Alike : Ties → Producer → Producer → Prop
  | done {τ} : Producer.Alike τ .done .done
  | fail {τ e} : Producer.Alike τ (.fail e) (.fail e)
  | emit {τ v v' p p'} : v.Alike (τ.scope .known) v' → Producer.Alike τ p p' →
      Producer.Alike τ (.emit v p) (.emit v' p')
  | append {τ p p' f g} : Producer.Alike τ p p' → Producer.Alike τ (f ()) (g ()) →
      Producer.Alike τ (.append p f) (.append p' g)
  | ask {τ q k k'} : (∀ a, Producer.Alike τ (k a) (k' a)) →
      Producer.Alike τ (.ask q k) (.ask q k')
  | fetch {τ s s' i k k'} : τ.Readable s s' →
      (∀ τ', τ ≤ τ' → ∀ x x', Option.Rel (Value.Alike (τ'.scope .known)) x x' →
        Producer.Alike τ' (k x) (k' x')) →
      Producer.Alike τ (.fetch s i k) (.fetch s' i k')
  | last {τ s s'} : τ.scope.Measurable s s' →
      Producer.Alike τ (lastPosition s) (lastPosition s')
  | share {τ p p' k k'} : Producer.Alike (.of τ.scope) p p' →
      (∀ τ', τ ≤ τ' → ∀ m n, τ'.scope .known m n →
        Producer.Alike τ' (k (.cell m)) (k' (.cell n))) →
      Producer.Alike τ (.share p k) (.share p' k')
  /-- The sequence that a filter goes through. -/
  | shareFocus {τ p p' k k'} : Producer.Alike (.of τ.scope) p p' →
      (∀ τ', τ ≤ τ' → ∀ m n, τ'.owned m n → τ'.inner .measured m n →
        Producer.Alike τ' (k (.cell m)) (k' (.cell n))) →
      Producer.Alike τ (.share p k) (.share p' k')
  /-- Items may be drawn from a predicate as long as what follows does not depend on the cells that
  they refer to. -/
  | gather {τ} (predicate : Bool) {step step' i kept kept' p p' k k'} :
      Producer.Alike (τ.sourced predicate) p p' →
      List.Forall₂ (Value.Alike ((τ.sourced predicate).scope .known)) kept kept' →
      (∀ τ', τ ≤ τ' → ∀ i kept kept' v v',
        List.Forall₂ (Value.Alike ((τ'.sourced predicate).scope .known)) kept kept' →
        v.Alike ((τ'.sourced predicate).scope .known) v' →
        (step i kept v).Alike ((τ'.sourced predicate).scope .known) (step' i kept' v')) →
      (∀ τ', τ ≤ τ' → ∀ kept kept',
        List.Forall₂ (Value.Alike ((τ'.sourced predicate).scope .known)) kept kept' →
        Producer.Alike τ' (k kept) (k' kept')) →
      Producer.Alike τ (.gather step i kept p k) (.gather step' i kept' p' k')
  | forEach {τ i p p' body body' finish finish'} : Producer.Alike τ p p' →
      (∀ τ', τ ≤ τ' → ∀ i v v', v.Alike (τ'.scope .known) v' →
        Producer.Alike τ' (body i v) (body' i v')) →
      (∀ i, Producer.Alike τ (finish i) (finish' i)) →
      Producer.Alike τ (.forEach i p body finish) (.forEach i p' body' finish')
  | apply {τ f f' c c' ps ps' k k'} : f.Alike (τ.scope .known) f' → c.Alike τ.scope c' →
      ps.length = ps'.length → (∀ {x y}, (x, y) ∈ ps.zip ps' → Producer.Alike (.of τ.scope) x y) →
      (∀ τ', τ ≤ τ' → ∀ m n, τ'.scope .known m n →
        Producer.Alike τ' (k (.cell m)) (k' (.cell n))) →
      Producer.Alike τ (.apply f c ps k) (.apply f' c' ps' k')
  | call {τ c c'} : c.Alike τ c' → Producer.Alike τ (.call c) (.call c')
  | log {τ label items p p'} : Producer.Alike τ p p' →
      Producer.Alike τ (.log label items p) (.log label items p')
  | pause {τ p p'} : Producer.Alike τ p p' → Producer.Alike τ (.pause p) (.pause p')
  | tick {τ p p'} : Producer.Alike τ p p' → Producer.Alike τ (.tick p) (.tick p')

/-! ## Growing ties -/

variable {β β' : Scope} {τ τ' : Ties}

theorem Scope.Measurable.mono (hβ : β ≤ β') {s s' : Shared} :
    β.Measurable s s' → β'.Measurable s s'
  | .listed hv => .listed (hv.imp fun _ _ h => h.mono (hβ .known))
  | .cell h => .cell (hβ .measured _ _ h)

theorem Ties.Readable.mono (hτ : τ ≤ τ') {s s' : Shared} : τ.Readable s s' → τ'.Readable s s'
  | .known h => .known (h.mono (hτ.1 .known))
  | .measured h => .measured (hτ.1 .measured _ _ h)
  | .owned h => .owned (hτ.2.1 _ _ h)

theorem Goal.Alike.mono (hρ : ρ ≤ ρ') {g g' : Goal} : g.Alike ρ g' → g.Alike ρ' g'
  | .items ha hb => .items (ha.mono hρ) (hb.mono hρ)
  | .members ha hb => .members (ha.mono hρ) (hb.mono hρ)
  | .differ => .differ

theorem Call.Alike.mono (hτ : τ ≤ τ') {c c' : Call} : c.Alike τ c' → c.Alike τ' c'
  | .read h => .read (h.mono hτ)
  | .leaves h => .leaves (h.imp fun _ _ h => h.mono (hτ.1 .known))
  | .equal h => .equal (h.imp fun _ _ h => h.mono (hτ.1 .known))

theorem Context.Alike.mono (hβ : β ≤ β') {c c' : Context} (hc : c.Alike β c') : c.Alike β' c' where
  item := hc.item.imp fun _ _ h => h.mono (hβ .known)
  position := hc.position
  sequence := hc.sequence.imp fun _ _ h => h.mono hβ
  scopes := hc.scopes.imp fun _ _ h => h.imp fun _ _ h => ⟨h.1, h.2.mono (hβ .known)⟩

theorem CallContext.Alike.mono (hβ : β ≤ β') {c c' : CallContext} (hc : c.Alike β c') :
    c.Alike β' c' :=
  ⟨hc.context.mono hβ, hc.access, hc.namespaces⟩

/-- What is alike stays alike when more cells are matched. -/
theorem Producer.Alike.mono {p p' : Producer} (hp : p.Alike τ p') (hτ : τ ≤ τ') : p.Alike τ' p' := by
  induction hp generalizing τ' with
  | done => exact .done
  | fail => exact .fail
  | emit hv _ ih => exact .emit (hv.mono (hτ.1 .known)) (ih hτ)
  | append _ _ ih ih' => exact .append (ih hτ) (ih' hτ)
  | ask _ ih => exact .ask fun a => ih a hτ
  | fetch hs hk _ => exact .fetch (hs.mono hτ) fun τ'' h => hk τ'' (hτ.trans h)
  | last hs => exact .last (hs.mono hτ.1)
  | share _ hk ih _ => exact .share (ih (Ties.of_mono hτ.1)) fun τ'' h => hk τ'' (hτ.trans h)
  | shareFocus _ hk ih _ =>
    exact .shareFocus (ih (Ties.of_mono hτ.1)) fun τ'' h => hk τ'' (hτ.trans h)
  | gather b _ hv hstep hk ih _ =>
    have hsource := Ties.sourced_mono hτ b
    exact .gather b (ih hsource) (hv.imp fun _ _ h => h.mono (hsource.1 .known))
      (fun τ'' h => hstep τ'' (hτ.trans h)) fun τ'' h => hk τ'' (hτ.trans h)
  | forEach _ hbody _ ih _ ihf =>
    exact .forEach (ih hτ) (fun τ'' h => hbody τ'' (hτ.trans h)) fun i => ihf i hτ
  | apply hf hc hl _ hk ih _ =>
    exact .apply (hf.mono (hτ.1 .known)) (hc.mono hτ.1) hl (fun h => ih h (Ties.of_mono hτ.1))
      fun τ'' h => hk τ'' (hτ.trans h)
  | call hc => exact .call (hc.mono hτ)
  | log _ ih => exact .log (ih hτ)
  | pause _ ih => exact .pause (ih hτ)
  | tick _ ih => exact .tick (ih hτ)

/-! ## Producers that have not been started -/

/-- The producers are alike and have not been started: they go through no filter yet. -/
abbrev Producer.Like (β : Scope) (p p' : Producer) : Prop := p.Alike (.of β) p'

namespace Producer.Like

variable {p p' q q' : Producer}

theorem mono (hp : p.Like β p') (hβ : β ≤ β') : p.Like β' p' := Alike.mono hp (Ties.of_mono hβ)

/-- What follows later may depend on all that is matched by then. -/
theorem alike (hp : p.Like τ.scope p') : p.Alike τ p' := Alike.mono hp τ.of_scope_le

theorem fetch {s s' : Shared} {i : Nat} {k k' : Option Value → Producer}
    (hs : s.Alike (β .known) s')
    (hk : ∀ β', β ≤ β' → ∀ x x', Option.Rel (Value.Alike (β' .known)) x x' →
      (k x).Like β' (k' x')) :
    (Producer.fetch s i k).Like β (.fetch s' i k') := by
  apply Alike.fetch (.known hs)
  intro τ' hτ x x' hx
  exact (hk τ'.scope hτ.1 x x' hx).alike

theorem share {k k' : Shared → Producer} (hp : p.Like β p')
    (hk : ∀ β', β ≤ β' → ∀ s s', s.Alike (β' .known) s' → (k s).Like β' (k' s')) :
    (Producer.share p k).Like β (.share p' k') := by
  apply Alike.share hp
  intro τ' hτ m n h
  exact (hk τ'.scope hτ.1 _ _ (.cell h)).alike

theorem gather {step step' : Nat → List Value → Value → Gathering} {i : Nat}
    {k k' : List Value → Producer} (hp : p.Like β p')
    (hstep : ∀ β', β ≤ β' → ∀ i kept kept' v v',
      List.Forall₂ (Value.Alike (β' .known)) kept kept' → v.Alike (β' .known) v' →
      (step i kept v).Alike (β' .known) (step' i kept' v'))
    (hk : ∀ β', β ≤ β' → ∀ kept kept', List.Forall₂ (Value.Alike (β' .known)) kept kept' →
      (k kept).Like β' (k' kept')) :
    (Producer.gather step i [] p k).Like β (.gather step' i [] p' k') := by
  apply Alike.gather false hp .nil
  · intro τ' hτ i kept kept' v v' hkept hv
    exact hstep τ'.scope hτ.1 i kept kept' v v' hkept hv
  · intro τ' hτ kept kept' hkept
    exact (hk τ'.scope hτ.1 kept kept' hkept).alike

theorem forEach {i : Nat} {body body' : Nat → Value → Producer} {finish finish' : Nat → Producer}
    (hp : p.Like β p')
    (hbody : ∀ β', β ≤ β' → ∀ i v v', v.Alike (β' .known) v' → (body i v).Like β' (body' i v'))
    (hfinish : ∀ i, (finish i).Like β (finish' i)) :
    (Producer.forEach i p body finish).Like β (.forEach i p' body' finish') := by
  apply Alike.forEach hp _ hfinish
  intro τ' hτ i v v' hv
  exact (hbody τ'.scope hτ.1 i v v' hv).alike

theorem apply {f f' : Function} {c c' : CallContext} {ps ps' : List Producer}
    {k k' : Shared → Producer} (hf : f.Alike (β .known) f') (hc : c.Alike β c')
    (hps : List.Forall₂ (Producer.Like β) ps ps')
    (hk : ∀ β', β ≤ β' → ∀ s s', s.Alike (β' .known) s' → (k s).Like β' (k' s')) :
    (Producer.apply f c ps k).Like β (.apply f' c' ps' k') := by
  apply Alike.apply hf hc hps.length_eq (fun h => (List.forall₂_iff_zip.1 hps).2 h)
  intro τ' hτ m n h
  exact (hk τ'.scope hτ.1 _ _ (.cell h)).alike

end Producer.Like

end XPath
