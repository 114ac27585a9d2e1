import XPath.Proofs.Expr.Fits

/-!
# The reference for paths

A path sorts the results of a step only where their order is not known already. The reference sorts
always: it takes each step once in the context of every node that the step before gave, unites the
results, and puts the union into document order. Here are the reference and the facts that let a path
do without sorting; that a path keeps to the reference is shown from them.
-/

namespace XPath

open Producer

variable {h : Host} {f : Forest}

namespace Meaning

/-! ## Taking steps -/

/-- What a step gives in each of the contexts, taken in turn, or the error that ends it. -/
inductive Takes (h : Host) (m : Meaning) (access : Access) :
    List Context → Session → Except Error (List (List Value)) → Session → Prop
  | nil {s} : Takes h m access [] s (.ok []) s
  | raised {c contexts e s} :
      m c access = .error e → Takes h m access (c :: contexts) s (.error e) s
  | failed {c contexts p vs e s t} :
      m c access = .ok p → Yields h p s vs (some e) t →
      Takes h m access (c :: contexts) s (.error e) t
  | cons {c contexts p vs r s t u} :
      m c access = .ok p → Yields h p s vs none t → Takes h m access contexts t r u →
      Takes h m access (c :: contexts) s (r.map (vs :: ·)) u

/-- What remaining steps come to, the next one taken in the given contexts; without any the inputs
are the result. The union of nodes is put into document order, for which the host may refuse its
answers, and each node is then alone in focus. Other items may come from the last step alone. -/
inductive Reference (h : Host) (f : Forest) (c : Context) (access : Access) :
    List Meaning → List Value → List Context → Session → Except Error (List Value) → Session → Prop
  | done {inputs contexts s} : Reference h f c access [] inputs contexts s (.ok inputs) s
  | failed {m ms inputs contexts e s t} :
      Takes h m access contexts s (.error e) t →
      Reference h f c access (m :: ms) inputs contexts s (.error e) t
  | nodes {m ms inputs contexts pieces ns r s t u} :
      Takes h m access contexts s (.ok pieces) t → pieces.flatten = ns.map .node →
      Reference h f c access ms ((f.documentOrder ns).map .node)
        ((f.documentOrder ns).map fun n => c.focusedOn (.node n)) t r u →
      Reference h f c access (m :: ms) inputs contexts s r u
  | unanswered {m ms inputs contexts pieces ns ns' e s t} :
      Takes h m access contexts s (.ok pieces) t → pieces.flatten = ns.map .node → ns' ⊆ ns →
      (Node.sort ns').run (access.host h) = .error e →
      Reference h f c access (m :: ms) inputs contexts s (.error e) t
  | items {m inputs contexts pieces s t} :
      Takes h m access contexts s (.ok pieces) t → (∀ v ∈ pieces.flatten, ¬v.isNode) →
      Reference h f c access [m] inputs contexts s (.ok pieces.flatten) t
  | applied {m m' ms inputs contexts pieces v s t} :
      Takes h m access contexts s (.ok pieces) t → v ∈ pieces.flatten →
      (∀ v ∈ pieces.flatten, ¬v.isNode) →
      Reference h f c access (m :: m' :: ms) inputs contexts s (.error stepOnItem) t
  | mixed {m ms inputs contexts pieces v w s t} :
      Takes h m access contexts s (.ok pieces) t → v ∈ pieces.flatten → v.isNode →
      w ∈ pieces.flatten → ¬w.isNode →
      Reference h f c access (m :: ms) inputs contexts s (.error mixedResult) t

/-- Nodes that steps come to are in document order. -/
theorem Reference.nodes_of_ok {c : Context} {access : Access} {ms : List Meaning}
    {inputs vs : List Value} {contexts : List Context} {s t : Session}
    (hr : Reference h f c access ms inputs contexts s (.ok vs) t)
    (hi : ∃ ns, inputs = (f.documentOrder ns).map .node) (hv : ∃ v ∈ vs, v.isNode) :
    ∃ ns, vs = (f.documentOrder ns).map .node := by
  generalize hvs : Except.ok vs = r at hr
  induction hr with
  | done =>
    cases hvs
    exact hi
  | nodes _ _ _ ih => exact ih ⟨_, rfl⟩ hvs
  | items _ hitems =>
    cases hvs
    obtain ⟨v, hv, hn⟩ := hv
    exact absurd hn (hitems v hv)
  | failed | unanswered | applied | mixed => cases hvs

/-! ## Collecting results -/

theorem mem_collect {results items : List Value} {v : Value} :
    v ∈ collect results items ↔ v ∈ results ∨ v ∈ items := by
  induction items generalizing results with
  | nil => simp [collect]
  | cons w items ih =>
    rw [collect, List.foldl_cons]
    refine ih.trans ?_
    rw [List.mem_cons, ← or_assoc]
    refine or_congr_left ?_
    split
    · split
      · next n hn =>
        obtain ⟨x, hx, hxn⟩ := List.any_eq_true.1 hn
        refine ⟨.inl, fun hv => hv.elim id fun hv => ?_⟩
        cases x <;> simp only [Value.isSameNode, beq_iff_eq, Bool.false_eq_true] at hxn
        exact hv ▸ hxn ▸ hx
      · rw [List.mem_cons, or_comm]
    · rw [List.mem_cons, or_comm]

/-- Of nodes, every one is collected where it comes first. -/
theorem collect_nodes (ns : List Node) :
    collect [] (ns.map .node) = (ns.eraseDups.map .node).reverse := by
  induction ns using List.reverseRecOn with
  | nil => rfl
  | append_singleton ns n ih =>
    have hany : ((ns.eraseDups.map Value.node).reverse.any (·.isSameNode n)) = decide (n ∈ ns) := by
      rw [Bool.eq_iff_iff]
      simp [Value.isSameNode]
    rw [List.map_append, collect, List.foldl_append]
    rw [show List.foldl _ [] (ns.map Value.node) = _ from ih, eraseDups_concat]
    simp only [List.map_cons, List.map_nil, List.foldl_cons, List.foldl_nil, hany]
    by_cases hn : n ∈ ns <;> simp [hn]

theorem collect_items {results items : List Value} (hi : ∀ v ∈ items, ¬v.isNode) :
    collect results items = items.reverse ++ results := by
  induction items generalizing results with
  | nil => rfl
  | cons v items ih =>
    have hv := hi v List.mem_cons_self
    rw [collect, List.foldl_cons]
    refine (ih fun w hw => hi w (List.mem_cons_of_mem v hw)).trans ?_
    cases v <;> simp [Value.isNode] at hv ⊢

/-! ## Uniting results -/

end Meaning

/-- The items in the order in which they are united: those that come in reverse are turned round. -/
def Operand.turned (step : Operand) (items : List Value) : List Value :=
  if step.traits.order = .reverse then items.reverse else items

namespace Operand

variable {step : Operand} {item : Option Value} {vs : List Value}

theorem mem_turned {v : Value} : v ∈ step.turned vs ↔ v ∈ vs := by
  rw [turned]
  split
  · exact List.mem_reverse
  · rfl

theorem ordered_turned (hf : step.traits.Fits f item vs) (ho : step.traits.order ≠ .unsorted) :
    f.Ordered (nodesIn (step.turned vs)) := by
  rw [turned]
  split
  · next hr =>
    rw [nodesIn, List.filterMap_reverse]
    exact (hf.reverse hr).2.1
  · next hr =>
    refine hf.sorted ?_
    cases h : step.traits.order <;> simp_all

/-- Turning items round leaves alone which tree comes first. -/
theorem roots_turned (hf : step.traits.Fits f item vs) :
    (nodesIn (step.turned vs)).map f.root = (nodesIn vs).map f.root := by
  rw [turned]
  split
  · next hr =>
    rw [nodesIn, List.filterMap_reverse, ← nodesIn, List.map_reverse]
    obtain ⟨-, -, hroot⟩ := hf.reverse hr
    rcases hn : nodesIn vs with _ | ⟨n, ns⟩
    · rfl
    · have : (n :: ns).map f.root = List.replicate (n :: ns).length (f.root n) := by
        refine List.eq_replicate_iff.2 ⟨List.length_map .., fun r hr => ?_⟩
        obtain ⟨m, hm, rfl⟩ := List.mem_map.1 hr
        exact hroot m (hn ▸ hm) n (hn ▸ List.mem_cons_self)
      rw [this, List.reverse_replicate]
  · rfl

end Operand

theorem mem_nodesIn {vs : List Value} {n : Node} : n ∈ nodesIn vs ↔ .node n ∈ vs := by
  rw [nodesIn, List.mem_filterMap]
  constructor
  · rintro ⟨v, hv, hn⟩
    cases v <;> cases hn
    exact hv
  · exact fun hn => ⟨_, hn, rfl⟩

theorem eq_map_nodesIn {vs : List Value} (hn : ∀ v ∈ vs, v.isNode) :
    vs = (nodesIn vs).map .node := by
  induction vs with
  | nil => rfl
  | cons v vs ih =>
    have hv := hn v List.mem_cons_self
    cases v <;> simp only [Value.isNode, Bool.false_eq_true] at hv
    exact congrArg _ (ih fun w hw => hn w (List.mem_cons_of_mem _ hw))

theorem nodesIn_flatMap (g : List Value → List Value) (pieces : List (List Value)) :
    nodesIn (pieces.flatMap g) = pieces.flatMap fun vs => nodesIn (g vs) :=
  List.filterMap_flatMap ..

theorem nodesIn_flatten (pieces : List (List Value)) :
    nodesIn pieces.flatten = pieces.flatMap nodesIn := by
  have := nodesIn_flatMap id pieces
  rwa [List.flatMap_id] at this

namespace Meaning

/-- The contexts of a step: at most one, or those of ordered nodes, of which none lies below another
one if they are said to be peers. -/
def Origins (f : Forest) (c : Context) (peers : Bool) (contexts : List Context) : Prop :=
  contexts.length ≤ 1 ∨ ∃ ns, contexts = ns.map (fun n => c.focusedOn (.node n)) ∧
    f.Ordered ns ∧ (peers → f.Peers ns)

theorem Origins.single (f : Forest) (c : Context) (peers : Bool) (c' : Context) :
    Origins f c peers [c'] := .inl (Nat.le_refl 1)

/-- What a step gives in some contexts, with every piece as the traits of the step say. -/
abbrev Pieces (f : Forest) (step : Operand) (contexts : List Context) (pieces : List (List Value)) :
    Prop :=
  List.Forall₂ (fun c vs => step.traits.Fits f c.item vs) contexts pieces

namespace Pieces

variable {step : Operand} {c : Context} {peers : Bool} {contexts : List Context}
  {pieces : List (List Value)}

/-- The pieces beside their origins, if these are several and the step stays below them. -/
theorem split (hp : Pieces f step contexts pieces) (ho : Origins f c peers contexts)
    (hone : ¬contexts.length ≤ 1) (hpeers : peers) (hsub : step.traits.subtree)
    (g : List Value → List Value) (hg : ∀ vs v, v ∈ g vs → v ∈ vs) :
    ∃ parts : List (Node × List Node), f.Ordered (parts.map (·.1)) ∧ f.Peers (parts.map (·.1)) ∧
      nodesIn (pieces.flatMap g) = parts.flatMap (·.2) ∧
      ∀ x ∈ parts, (∀ m ∈ x.2, m ∈ f.walk x.1) ∧
        ∃ item vs, step.traits.Fits f item vs ∧ x.2 = nodesIn (g vs) := by
  obtain ho | ⟨ns, rfl, hord, hpeer⟩ := ho
  · exact absurd ho hone
  obtain ⟨hlen, hfit⟩ := List.forall₂_iff_zip.1 hp
  rw [List.length_map] at hlen
  have hfst : (ns.zip (pieces.map fun vs => nodesIn (g vs))).map (·.1) = ns :=
    List.map_fst_zip (by simp [hlen])
  refine ⟨ns.zip (pieces.map fun vs => nodesIn (g vs)), ?_, ?_, ?_, ?_⟩
  · rwa [hfst]
  · rw [hfst]
    exact hpeer hpeers
  · rw [nodesIn_flatMap, List.flatMap, List.flatMap]
    exact congrArg _ (List.map_snd_zip (by simp [hlen])).symm
  · rintro ⟨n, ms⟩ hx
    rw [List.zip_map_right, List.mem_map] at hx
    obtain ⟨⟨n', vs⟩, hx, heq⟩ := hx
    cases heq
    have hfit := hfit (a := c.focusedOn (.node n')) (b := vs) (by
      rw [List.zip_map_left]
      exact List.mem_map.2 ⟨_, hx, rfl⟩)
    refine ⟨fun m hm => ?_, _, vs, hfit, rfl⟩
    obtain ⟨_, hitem, hw⟩ := hfit.subtree hsub m (mem_nodesIn.2 (hg _ _ (mem_nodesIn.1 hm)))
    cases hitem
    exact hw

theorem exists_context (hp : Pieces f step contexts pieces) {vs : List Value} (hvs : vs ∈ pieces) :
    ∃ c ∈ contexts, step.traits.Fits f c.item vs := by
  induction hp with
  | nil => cases hvs
  | cons hf _ ih =>
    rcases List.mem_cons.1 hvs with rfl | hvs
    · exact ⟨_, List.mem_cons_self, hf⟩
    · obtain ⟨c, hc, hf⟩ := ih hvs
      exact ⟨c, List.mem_cons_of_mem _ hc, hf⟩

theorem eq_of_length (hp : Pieces f step contexts pieces) (hone : contexts.length ≤ 1) :
    pieces = [] ∨ ∃ item vs, pieces = [vs] ∧ step.traits.Fits f item vs := by
  cases hp with
  | nil => exact .inl rfl
  | cons hf hp =>
    cases hp with
    | nil => exact .inr ⟨_, _, rfl, hf⟩
    | cons => simp at hone

/-- A step that needs no sorting gives its nodes in document order. -/
theorem ordered_turned (hp : Pieces f step contexts pieces) (ho : Origins f c peers contexts)
    (hs : needsSort step.traits contexts.length peers = false) :
    f.Ordered (nodesIn (pieces.flatMap step.turned)) := by
  simp only [needsSort, Bool.or_eq_false_iff, decide_eq_false_iff_not, Bool.not_eq_eq_eq_not,
    Bool.not_false, Bool.or_eq_true, decide_eq_true_eq, Bool.and_eq_true] at hs
  obtain ⟨hsorted, hs⟩ := hs
  by_cases hone : contexts.length ≤ 1
  · obtain rfl | ⟨item, vs, rfl, hf⟩ := hp.eq_of_length hone
    · exact Forest.ordered_of_length (Nat.zero_le _)
    · rw [List.flatMap_singleton]
      exact Operand.ordered_turned hf hsorted
  · obtain ⟨hpeers, hsub⟩ := hs.resolve_left hone
    obtain ⟨parts, hord, hpeer, heq, hx⟩ := hp.split ho hone hpeers hsub step.turned
      fun _ _ => Operand.mem_turned.1
    rw [heq]
    refine Forest.Ordered.flatMap hord hpeer fun x hmem => ⟨?_, (hx x hmem).1⟩
    obtain ⟨-, item, vs, hf, hvs⟩ := hx x hmem
    exact hvs ▸ Operand.ordered_turned hf hsorted

/-- A step that keeps peers gives peers. -/
theorem peers_flatten (hp : Pieces f step contexts pieces) (ho : Origins f c peers contexts)
    (hk : keepsPeers step.traits contexts.length peers) : f.Peers (nodesIn pieces.flatten) := by
  simp only [keepsPeers, Bool.and_eq_true, Bool.or_eq_true, decide_eq_true_eq] at hk
  obtain ⟨hpeer, hk⟩ := hk
  by_cases hone : contexts.length ≤ 1
  · obtain rfl | ⟨item, vs, rfl, hf⟩ := hp.eq_of_length hone
    · simp [nodesIn, Forest.Peers]
    · rw [List.flatten_singleton]
      exact hf.peer hpeer
  · obtain ⟨hpeers, hsub⟩ := hk.resolve_left hone
    obtain ⟨parts, hord, hpeers, heq, hx⟩ := hp.split ho hone hpeers hsub id fun _ _ => id
    rw [← List.flatMap_id, heq]
    refine Forest.Peers.flatMap hord hpeers fun x hmem => ⟨?_, (hx x hmem).1⟩
    obtain ⟨-, item, vs, hf, hvs⟩ := hx x hmem
    exact hvs ▸ hf.peer hpeer

/-- In whatever order the pieces are united, the first node of every tree comes from the same
place. -/
theorem documentOrder_turned (hp : Pieces f step contexts pieces) :
    f.documentOrder (nodesIn (pieces.flatMap step.turned)).eraseDups =
      f.documentOrder (nodesIn pieces.flatten) := by
  refine Forest.documentOrder_congr ?_ fun n => ?_
  · rw [Forest.roots, eraseDups_map_eraseDups, Forest.roots]
    congr 1
    rw [nodesIn_flatMap, nodesIn_flatten]
    induction hp with
    | nil => rfl
    | cons hf _ ih => simp only [List.flatMap_cons, List.map_append, Operand.roots_turned hf, ih]
  · simp only [List.mem_eraseDups, mem_nodesIn, List.mem_flatMap, List.mem_flatten,
      Operand.mem_turned]

end Pieces

variable {step : Operand} {contexts : List Context} {pieces : List (List Value)}

/-- The results of a step, united. -/
def united (step : Operand) (pieces : List (List Value)) : List Value :=
  (collect [] (pieces.flatMap step.turned)).reverse

theorem mem_united {v : Value} : v ∈ united step pieces ↔ v ∈ pieces.flatten := by
  simp [united, mem_collect, Operand.mem_turned]

theorem united_nodes (hn : ∀ v ∈ pieces.flatten, v.isNode) :
    united step pieces = (nodesIn (pieces.flatMap step.turned)).eraseDups.map .node := by
  have hturned : ∀ v ∈ pieces.flatMap step.turned, v.isNode := fun v hv => by
    refine hn v ?_
    simpa [Operand.mem_turned] using hv
  rw [united, eq_map_nodesIn hturned, collect_nodes, List.reverse_reverse, nodesIn_map]

/-- A step that gives no nodes has nothing to turn round. -/
theorem united_items (hp : Pieces f step contexts pieces) (hn : ∀ v ∈ pieces.flatten, ¬v.isNode) :
    united step pieces = pieces.flatten := by
  have hturned : pieces.flatMap step.turned = pieces.flatten := by
    induction hp with
    | nil => rfl
    | @cons c vs contexts pieces hf _ ih =>
      rw [List.flatten_cons] at hn
      rw [List.flatMap_cons, List.flatten_cons,
        ih fun v hv => hn v (List.mem_append_right _ hv), Operand.turned]
      split
      · next hr =>
        rcases vs with _ | ⟨v, vs⟩
        · rfl
        · exact absurd ((hf.reverse hr).1 v List.mem_cons_self)
            (hn v (List.mem_append_left _ List.mem_cons_self))
      · rfl
  rw [united, hturned, collect_items hn, List.append_nil, List.reverse_reverse]

end Meaning

end XPath
