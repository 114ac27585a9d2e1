import XPath.Proofs.Expr.Paths

/-!
# Trees and their preparation

An expression tree is lawful if what is cached in it are values of constants, and a single item at
most unless its nodes are unsorted. Trees as they are built have nothing cached, and preparation keeps
them lawful. Every lawful tree gives what its traits say, over all forests, and so a path in it keeps
to the reference (`Expr.path_reference`).
-/

namespace XPath

open Producer

variable {h : Host} {f : Forest}

namespace Expr

/-! ## Recursion -/

/-- What holds of a tree when it holds of its operands holds of every tree. -/
theorem children_induction {P : Expr → Prop} (up : ∀ e, (∀ e' ∈ e.children, P e') → P e)
    (e : Expr) : P e := by
  have below : ∀ {e e' : Expr}, e' ∈ e.children → sizeOf e' < sizeOf e := by
    intro e e' he
    cases e with
    | leaf => cases he
    | signed | binary =>
      simp only [children, List.mem_cons, List.not_mem_nil, or_false] at he
      rcases he with rfl | rfl <;> simp <;> omega
    | nary op notes es =>
      have := List.sizeOf_lt_of_mem (show e' ∈ es from he)
      simp
      omega
  induction hn : sizeOf e using Nat.strongRecOn generalizing e with
  | ind n ih => exact up e fun e' he => ih _ (hn ▸ below he) e' rfl

theorem operandsOf_eq (es : List Expr) : operandsOf es = es.map fun e => ⟨e.traits, e.evaluate⟩ := by
  induction es with
  | nil => rfl
  | cons e es ih => rw [operandsOf, List.map_cons, ih]

theorem traitsOf_eq (es : List Expr) : traitsOf es = es.map traits := by
  induction es with
  | nil => rfl
  | cons e es ih => rw [traitsOf, List.map_cons, ih]

@[simp] theorem traits_withNotes (notes : Notes) (e : Expr) : (e.withNotes notes).traits = e.traits := by
  cases e <;> rfl

@[simp] theorem notes_withNotes (notes : Notes) (e : Expr) : (e.withNotes notes).notes = notes := by
  cases e <;> rfl

@[simp] theorem children_withNotes (notes : Notes) (e : Expr) :
    (e.withNotes notes).children = e.children := by
  cases e <;> rfl

/-- A constant says nothing of where its nodes lie. -/
theorem traits_of_constant (e : Expr) (hc : e.traits.constant) :
    e.traits.order ≠ .reverse ∧ e.traits.peer = false ∧ e.traits.subtree = false := by
  induction e using children_induction with
  | up e ih =>
    cases e with
    | leaf op notes => cases op <;> simp_all [traits, Leaf.traits, Traits.plain]
    | signed => simp [traits, Traits.plain] at hc
    | binary op notes l r =>
      cases op with
      | arithmetic | comparison => simp [traits, BinaryOperator.traits, Traits.plain]
      | filter => exact ih l List.mem_cons_self (Bool.and_eq_true_iff.1 hc).1
    | nary op notes es =>
      cases op <;> simp_all [traits, NaryOperator.traits, Traits.plain]

end Expr

/-! ## Lawful trees -/

/-- The items can be the value of a constant with these traits. -/
def Traits.Caches (traits : Traits) (items : List Value) : Prop :=
  traits.constant ∧ (traits.order ≠ .unsorted → items.length ≤ 1)

theorem Notes.recall_fits {traits : Traits} {notes : Notes} {m : Meaning}
    (hc : ∀ items, notes.cached? = some items → traits.Caches items ∧
      traits.order ≠ .reverse ∧ traits.peer = false ∧ traits.subtree = false)
    (hm : Operand.Fits h f ⟨traits, m⟩) : Operand.Fits h f ⟨traits, notes.recall m⟩ := by
  rcases hn : notes.cached? with _ | items
  · rwa [Notes.recall, hn]
  · rw [Notes.recall, hn]
    intro c access p hp
    cases hp
    obtain ⟨⟨-, hl⟩, hr, hpeer, hsub⟩ := hc items hn
    refine keeps_of_lists (.ofList items) fun M hM => ?_
    by_cases ho : traits.order = .unsorted
    · exact Traits.fits_of_unsorted ho hpeer hsub
    · exact Traits.fits_of_length hr hsub (hM.length_le.trans (hl ho))

/-- An operator that says nothing of its nodes. -/
theorem Operand.fits_of_unsorted {traits : Traits} (ho : traits.order = .unsorted)
    (hp : traits.peer = false) (ht : traits.subtree = false) (m : Meaning) :
    Operand.Fits h f ⟨traits, m⟩ :=
  fun _ _ _ _ => .steady fun _ _ => Traits.fits_of_unsorted ho hp ht

theorem Meaning.firstDeciding_fits {traits : Traits} (ho : traits.order ≠ .reverse) (ht : traits.subtree = false)
    (deciding : Bool) (operands : List Meaning) :
    Operand.Fits h f ⟨traits, fun c access =>
      .ok (Meaning.firstDeciding deciding c access operands)⟩ := by
  intro c access p hp
  cases hp
  exact .steady fun M hM => Traits.fits_of_length ho ht (Meaning.length_firstDeciding hM)

theorem BinaryOperator.fits {l r : Operand} (hl : l.Fits h f) (op : BinaryOperator) :
    Operand.Fits h f ⟨op.traits l.traits r.traits, op.meaning l r⟩ := by
  cases op with
  | arithmetic | comparison => exact Operand.fits_of_unsorted rfl rfl rfl _
  | filter => exact Meaning.filter_fits hl

theorem NaryOperator.fits (hs : h.Serves f) {operands : List Operand}
    (hf : ∀ o ∈ operands, o.Fits h f) (static? : Option StaticContext) (op : NaryOperator) :
    Operand.Fits h f ⟨op.traits (operands.map (·.traits)), op.meaning static? operands⟩ := by
  cases op with
  | sequence | squareArray | curlyArray | map | call => exact Operand.fits_of_unsorted rfl rfl rfl _
  | or | and => exact Meaning.firstDeciding_fits (by simp [NaryOperator.traits, Traits.plain]) rfl _ _
  | path => exact Meaning.path_fits hs hf

namespace Expr

/-- Whatever is cached at a node of the tree can be the value of a constant there. -/
inductive Lawful : Expr → Prop
  | intro {e} : (∀ items, e.notes.cached? = some items → e.traits.Caches items) →
      (∀ e' ∈ e.children, Lawful e') → Lawful e

/-- A lawful tree gives what its traits say. -/
theorem Lawful.fits (hs : h.Serves f) {e : Expr} (he : e.Lawful) :
    Operand.Fits h f ⟨e.traits, e.evaluate⟩ := by
  induction he with
  | @intro e hcache _ ih =>
    have hc : ∀ items, e.notes.cached? = some items → e.traits.Caches items ∧
        e.traits.order ≠ .reverse ∧ e.traits.peer = false ∧ e.traits.subtree = false :=
      fun items hi => ⟨hcache items hi, e.traits_of_constant (hcache items hi).1⟩
    cases e with
    | leaf op notes =>
      rw [evaluate]
      exact notes.recall_fits hc (Leaf.fits hs op notes.static?)
    | signed sign notes e =>
      rw [evaluate]
      exact notes.recall_fits hc (Operand.fits_of_unsorted rfl rfl rfl _)
    | binary op notes l r =>
      rw [evaluate]
      exact notes.recall_fits hc (BinaryOperator.fits (l := ⟨l.traits, l.evaluate⟩)
        (r := ⟨r.traits, r.evaluate⟩) (ih l List.mem_cons_self) op)
    | nary op notes es =>
      rw [evaluate]
      have hf : ∀ o ∈ operandsOf es, o.Fits h f := by
        rw [operandsOf_eq]
        rintro o ho
        obtain ⟨e, he, rfl⟩ := List.mem_map.1 ho
        exact ih e he
      have htraits : (operandsOf es).map (·.traits) = traitsOf es := by
        simp [operandsOf_eq, traitsOf_eq]
      have := NaryOperator.fits hs hf notes.static? op
      rw [htraits] at this
      exact notes.recall_fits hc this

/-! ## Preparation -/

theorem Lawful.withNotes {e : Expr} {notes : Notes} (he : e.Lawful)
    (hn : ∀ items, notes.cached? = some items → e.traits.Caches items) :
    (e.withNotes notes).Lawful := by
  obtain ⟨-, hchildren⟩ := he
  refine ⟨fun items hi => ?_, by rwa [children_withNotes]⟩
  rw [notes_withNotes] at hi
  rw [traits_withNotes]
  exact hn items hi

theorem Lawful.prepareNode {e : Expr} (he : e.Lawful) (static : StaticContext) (fuel : Nat)
    (s : Session) : (prepareNode static fuel e s).1.Lawful := by
  have hcached : ∀ items, e.notes.cached? = some items → e.traits.Caches items := he.rec
    fun hc _ _ => hc
  have hnoted : (e.withNotes ⟨e.notes.static?.or (some static), e.notes.cached?⟩).Lawful :=
    he.withNotes hcached
  unfold Expr.prepareNode
  dsimp only
  split
  · next hc =>
    split
    · next p hp =>
      split
      · next items t hcol =>
        refine hnoted.withNotes fun kept hk => ?_
        cases hk
        obtain ⟨vs, hy, rfl⟩ := collect_sound hcol
        have hf := (hnoted.fits (Host.absent_serves []) .empty .detached p hp).yields
          Traits.fits_nil hy
        have hconstant := (Bool.and_eq_true_iff.1 hc).1
        exact ⟨hconstant, hf.lone hconstant⟩
      · exact hnoted
      · exact hnoted
    · exact hnoted
  · exact hnoted

theorem traits_prepareNode (static : StaticContext) (fuel : Nat) (e : Expr) (s : Session) :
    (prepareNode static fuel e s).1.traits = e.traits := by
  unfold prepareNode
  dsimp only
  split
  · split
    · split <;> simp
    · simp
  · simp

theorem forall_mem_prepareAll {static : StaticContext} {fuel : Nat} {P : Expr → Prop}
    {es : List Expr} (hes : ∀ e ∈ es, ∀ s, P (prepare static fuel e s).1) (s : Session) :
    ∀ e ∈ (prepareAll static fuel es s).1, P e := by
  induction es generalizing s with
  | nil => simp [prepareAll]
  | cons e es ih =>
    simp only [prepareAll, List.mem_cons, forall_eq_or_imp]
    exact ⟨hes e List.mem_cons_self s, ih (fun e he => hes e (List.mem_cons_of_mem _ he)) _⟩

theorem traitsOf_prepareAll {static : StaticContext} {fuel : Nat} {es : List Expr}
    (hes : ∀ e ∈ es, ∀ s, (prepare static fuel e s).1.traits = e.traits) (s : Session) :
    traitsOf (prepareAll static fuel es s).1 = traitsOf es := by
  induction es generalizing s with
  | nil => rfl
  | cons e es ih =>
    simp only [prepareAll, traitsOf]
    rw [hes e List.mem_cons_self, ih fun e he => hes e (List.mem_cons_of_mem _ he)]

/-- Preparation changes notes alone, so the traits stay. -/
theorem traits_prepare (static : StaticContext) (fuel : Nat) (e : Expr) (s : Session) :
    (e.prepare static fuel s).1.traits = e.traits := by
  induction e using children_induction generalizing s with
  | up e ih =>
    cases e with
    | leaf => exact traits_prepareNode ..
    | signed sign notes e =>
      rw [prepare]
      refine (traits_prepareNode ..).trans ?_
      rw [traits, traits, ih e List.mem_cons_self]
    | binary op notes l r =>
      rw [prepare]
      refine (traits_prepareNode ..).trans ?_
      rw [traits, traits, ih l List.mem_cons_self, ih r (List.mem_cons_of_mem _ List.mem_cons_self)]
    | nary op notes es =>
      rw [prepare]
      refine (traits_prepareNode ..).trans ?_
      have ih : ∀ e ∈ es, ∀ s, (prepare static fuel e s).1.traits = e.traits := ih
      rw [traits, traits, traitsOf_prepareAll ih]

/-- Preparation keeps a tree lawful. -/
theorem Lawful.prepare {e : Expr} (he : e.Lawful) (static : StaticContext) (fuel : Nat)
    (s : Session) : (e.prepare static fuel s).1.Lawful := by
  induction he generalizing s with
  | @intro e hcache _ ih =>
    cases e with
    | leaf => exact Lawful.prepareNode ⟨hcache, fun _ he => (nomatch he)⟩ ..
    | signed sign notes e =>
      rw [Expr.prepare]
      refine Lawful.prepareNode ⟨fun items hi => ?_, fun e' he' => ?_⟩ ..
      · simpa only [traits, traits_prepare] using hcache items hi
      · rw [children, List.mem_singleton] at he'
        exact he' ▸ ih e List.mem_cons_self s
    | binary op notes l r =>
      rw [Expr.prepare]
      refine Lawful.prepareNode ⟨fun items hi => ?_, fun e' he' => ?_⟩ ..
      · simpa only [traits, traits_prepare] using hcache items hi
      · rw [children, List.mem_pair] at he'
        rcases he' with rfl | rfl
        · exact ih l List.mem_cons_self s
        · exact ih r (List.mem_cons_of_mem _ List.mem_cons_self) _
    | nary op notes es =>
      rw [Expr.prepare]
      have ih : ∀ e ∈ es, ∀ s, (Expr.prepare static fuel e s).1.Lawful := ih
      have htraits := traitsOf_prepareAll (fun e (_ : e ∈ es) s => traits_prepare static fuel e s) s
      refine Lawful.prepareNode ⟨fun items hi => ?_, ?_⟩ ..
      · have := hcache items hi
        rwa [traits, ← htraits] at this
      · exact forall_mem_prepareAll ih s

/-- Trees put together from the constructors of the library, any part of which may have been
prepared. -/
inductive Built : Expr → Prop
  | leaf {op} : Built (.leaf op .blank)
  | signed {sign e} : Built e → Built (.signed sign .blank e)
  | binary {op l r} : Built l → Built r → Built (.binary op .blank l r)
  | nary {op es} : (∀ e ∈ es, Built e) → Built (.nary op .blank es)
  | prepared {static fuel e s} : Built e → Built (e.prepare static fuel s).1

theorem Built.lawful {e : Expr} (he : e.Built) : e.Lawful := by
  induction he with
  | leaf => exact ⟨fun _ hi => (by cases hi), fun _ he => (by cases he)⟩
  | signed _ ih =>
    refine ⟨fun _ hi => (by cases hi), fun e' he' => ?_⟩
    rw [children, List.mem_singleton] at he'
    exact he' ▸ ih
  | binary _ _ ihl ihr =>
    refine ⟨fun _ hi => (by cases hi), fun e' he' => ?_⟩
    rw [children, List.mem_pair] at he'
    rcases he' with rfl | rfl
    · exact ihl
    · exact ihr
  | nary _ ih => exact ⟨fun _ hi => (by cases hi), ih⟩
  | prepared _ ih => exact ih.prepare ..

/-! ## Paths -/

/-- A path of a tree as it is built and prepared comes to what the reference comes to, whatever it
does not sort. If it succeeds with nodes, these are in document order without duplicates. -/
theorem path_reference (hs : h.Serves f) {notes : Notes} {steps : List Expr} {c : Context}
    {p : Producer} {fuel : Nat} {s u : Session} {r : Except Error (List Value)}
    (hb : (nary .path notes steps).Built)
    (hp : (nary .path notes steps).evaluate c .live = .ok p)
    (hm : p.materialize h fuel [] s = some (r, u)) :
    Meaning.Reference h f c .live (steps.map evaluate) [] [c] s.calm r u.calm ∧
      ∀ vs, r = .ok vs → (∃ v ∈ vs, v.isNode) →
        ∃ ns, vs = ns.map .node ∧ ns.Nodup ∧ f.documentOrder ns = ns := by
  obtain ⟨hcache, hsteps⟩ := hb.lawful
  have hnone : notes.cached? = none := by
    rcases hn : notes.cached? with _ | items
    · rfl
    · exact absurd (hcache items hn).1 (by simp [traits, NaryOperator.traits])
  rw [evaluate, Notes.recall, hnone] at hp
  have hf : ∀ o ∈ operandsOf steps, o.Fits h f := by
    rw [operandsOf_eq]
    rintro o ho
    obtain ⟨e, he, rfl⟩ := List.mem_map.1 ho
    exact (hsteps e he).fits hs
  obtain ⟨ws, e, hy, hr⟩ := materialize_sound hm
  rw [List.reverse_nil, List.nil_append] at hr
  have href := Meaning.path_yields hs hf hp hy
  have hmeanings : (operandsOf steps).map (·.meaning) = steps.map evaluate := by
    simp [operandsOf_eq]
  rw [hmeanings, ← hr] at href
  refine ⟨href, fun vs hvs hnode => ?_⟩
  rw [hvs] at href
  obtain ⟨ns, hns⟩ := href.nodes_of_ok ⟨[], rfl⟩ hnode
  have ho := f.ordered_documentOrder ns
  exact ⟨_, hns, ho.nodup, ho.eq⟩

/-- The parents of the children of an element are the element, once. -/
theorem path_parents :
    let forest : Forest := [.element ⟨none, "r", none⟩ [] [.text "x", .text "y"]]
    let root : Node := ⟨0, [], .element, some ⟨none, "r", none⟩, 1⟩
    let steps := [step .child .anyKind, step .parent .anyKind]
    let c := Context.initial (some (.node root)) []
    ∃ p u, (operator .path steps).evaluate c .live = .ok p ∧
      p.materialize (.ofForest forest) 30 [] .empty = some (.ok [.node root], u) ∧
      Meaning.Reference (.ofForest forest) forest c .live (steps.map evaluate) [] [c] .empty
        (.ok [.node root]) u.calm := by
  intro forest root steps c
  have hb : (operator .path steps).Built := .nary fun e he => by
    rcases List.mem_pair.1 he with rfl | rfl <;> exact .leaf
  obtain ⟨p, hp⟩ : ∃ p, (operator .path steps).evaluate c .live = .ok p := ⟨_, rfl⟩
  have hm : (p.materialize (.ofForest forest) 30 [] .empty).map (·.1) = some (.ok [.node root]) := by
    cases hp
    rfl
  obtain ⟨⟨r, u⟩, hm, rfl⟩ := Option.map_eq_some_iff.1 hm
  exact ⟨p, u, hp, hm, (path_reference (Host.ofForest_serves forest) hb hp hm).1⟩

end Expr

end XPath
