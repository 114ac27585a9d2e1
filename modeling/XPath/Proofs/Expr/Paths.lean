import XPath.Proofs.Expr.Reference
import XPath.Proofs.Lazy.Settling

/-!
# Paths keep to the reference

A path whose steps fit their traits comes to what the reference comes to (`Meaning.path_yields`). The
proof takes one step at a time: what the step gives is in document order already when the path does
not sort it, and the origins of the next step are again nodes in document order. From the reference
it follows that the path itself fits the traits derived for it (`Meaning.path_fits`).
-/

namespace XPath

open Producer

variable {h : Host} {f : Forest}

namespace Producer

theorem Yields.of_deferred {build : Unit → Except Error Producer} {s t : Session} {vs : List Value}
    {e : Option Error} (hy : Yields h (deferred build) s vs e t) :
    (∃ p, build () = .ok p ∧ Yields h p s vs e t) ∨
      ∃ err, build () = .error err ∧ e = some err ∧ t = s := by
  have hb : Yields h (ofExcept (build ())) s vs e t := by
    cases hy with
    | finish hd => exact .finish hd.of_deferred
    | failed hd => exact .failed hd.of_deferred
    | item hd hy => exact .item hd.of_deferred hy
  cases hbuild : build () with
  | ok p =>
    rw [hbuild] at hb
    exact .inl ⟨p, rfl, hb⟩
  | error err =>
    rw [hbuild] at hb
    cases hb with
    | finish hd | item hd => cases hd
    | failed hd =>
      cases hd
      exact .inr ⟨err, rfl, rfl, rfl⟩

end Producer

namespace Meaning

variable {step : Operand} {c : Context} {access : Access} {contexts : List Context}
  {s t u : Session} {d : Draw}

/-! ## One step -/

theorem draws_fromOrigins {results : List Value} {next : List Value → Producer}
    (hd : Draws h (fromOrigins step access results (contexts.map .ok) next) s d t) :
    (∃ pieces u, Takes h step.meaning access contexts s (.ok pieces) u ∧
      Draws h (next (collect results (pieces.flatMap step.turned)).reverse) u d t) ∨
    ∃ e, Takes h step.meaning access contexts s (.error e) t ∧ d = .failed e := by
  induction contexts generalizing s results with
  | nil => exact .inl ⟨[], s, .nil, hd⟩
  | cons c contexts ih =>
    rw [List.map_cons, fromOrigins] at hd
    rcases hd.of_drain with ⟨vs, u, hy, hd⟩ | ⟨vs, e, hy, rfl⟩
    · rcases hy.of_deferred with ⟨p, hp, hy⟩ | ⟨_, -, he, -⟩
      · rcases ih hd with ⟨pieces, u, ht, hd⟩ | ⟨e, ht, rfl⟩
        · refine .inl ⟨vs :: pieces, u, .cons hp hy ht, ?_⟩
          rw [List.flatMap_cons, collect, List.foldl_append]
          exact hd
        · exact .inr ⟨e, .cons hp hy ht, rfl⟩
      · cases he
    · rcases hy.of_deferred with ⟨p, hp, hy⟩ | ⟨_, he, heq, rfl⟩
      · exact .inr ⟨e, .failed hp hy, rfl⟩
      · cases heq
        exact .inr ⟨e, .raised he, rfl⟩

/-- The pieces that a step gives are as its traits say. -/
theorem Takes.pieces (hf : step.Fits h f) {pieces : List (List Value)}
    (ht : Takes h step.meaning access contexts s (.ok pieces) t) :
    Pieces f step contexts pieces := by
  generalize hr : Except.ok pieces = r at ht
  induction ht generalizing pieces with
  | nil =>
    cases hr
    exact .nil
  | raised | failed => cases hr
  | @cons c contexts p vs r s t u hp hy _ ih =>
    cases r with
    | error e => cases hr
    | ok rest =>
      cases hr
      exact .cons ((hf c access p hp).yields Traits.fits_nil hy) (ih rfl)

/-- What is drawn once the results of a step are arranged: they are nodes, put into document order;
or other items, left as they are; or they are refused. -/
theorem draws_arrange (hs : h.Serves f) {peers : Bool} {pieces : List (List Value)}
    {next : List Value → Producer} (hp : Pieces f step contexts pieces)
    (ho : Origins f c peers contexts)
    (hd : Draws h (arrange step.traits access contexts.length peers (united step pieces) next) s d t) :
    (∃ ns, pieces.flatten = ns.map .node ∧
      (Draws h (next ((f.documentOrder ns).map .node)) s d t ∨
        ∃ ns' e, ns' ⊆ ns ∧ (Node.sort ns').run (access.host h) = .error e ∧ d = .failed e ∧ t = s)) ∨
    (pieces.flatten ≠ [] ∧ (∀ v ∈ pieces.flatten, ¬v.isNode) ∧ Draws h (next pieces.flatten) s d t) ∨
    (∃ v ∈ pieces.flatten, v.isNode ∧ ∃ w ∈ pieces.flatten, ¬w.isNode) ∧
      d = .failed mixedResult ∧ t = s := by
  by_cases hitem : ∃ w ∈ pieces.flatten, ¬w.isNode
  · rw [arrange] at hd
    split at hd
    · next hnode =>
      rw [if_pos (by simpa [mem_united] using hitem)] at hd
      refine .inr (.inr ⟨?_, hd.of_fail⟩)
      obtain ⟨v, hv, hn⟩ := List.any_eq_true.1 hnode
      exact ⟨v, mem_united.1 hv, hn, hitem⟩
    · next hnode =>
      have hn : ∀ v ∈ pieces.flatten, ¬v.isNode := fun v hv hn =>
        hnode (List.any_eq_true.2 ⟨v, mem_united.2 hv, hn⟩)
      rw [united_items hp hn] at hd
      obtain ⟨w, hw, -⟩ := hitem
      exact .inr (.inl ⟨List.ne_nil_of_mem hw, hn, hd⟩)
  · have hn : ∀ v ∈ pieces.flatten, v.isNode := fun v hv => by_contra fun h => hitem ⟨v, hv, h⟩
    refine .inl ⟨nodesIn pieces.flatten, eq_map_nodesIn hn, ?_⟩
    rw [united_nodes hn] at hd
    have horder := hp.documentOrder_turned
    set ns := (nodesIn (pieces.flatMap step.turned)).eraseDups with hns
    have hsub : ns ⊆ nodesIn pieces.flatten := fun n hn => by
      simpa [hns, mem_nodesIn, Operand.mem_turned] using hn
    have stays : f.Ordered ns → Draws h (next (ns.map .node)) s d t →
        Draws h (next ((f.documentOrder (nodesIn pieces.flatten)).map .node)) s d t := by
      intro ho hd
      rwa [← horder, ho.eq]
    rw [arrange] at hd
    split at hd
    · rw [if_neg (by simp [Value.isNode])] at hd
      split at hd
      · rw [← nodesIn, nodesIn_map] at hd
        rcases hd.of_perform with ⟨sorted, hrun, hd⟩ | ⟨e, hrun, hd⟩
        · have := Task.run_of_serves (Access.serves hs access) hrun
          rw [Node.sort_run, Except.ok.injEq] at this
          rw [← this, horder] at hd
          exact .inl hd
        · exact .inr ⟨ns, e, hsub, hrun, hd⟩
      · next hsort =>
        refine .inl (stays ?_ hd)
        rw [Bool.and_eq_true, not_and_or, Bool.not_eq_true] at hsort
        rcases hsort with hsort | hlen
        · exact (hp.ordered_turned ho hsort).sublist (eraseDups_sublist _)
        · exact Forest.ordered_of_length (by simpa using hlen)
    · next hany =>
      refine .inl (stays (Forest.ordered_of_length ?_) hd)
      rcases hcase : ns with _ | ⟨n, ns⟩
      · exact Nat.zero_le _
      · exact absurd (by simp [hcase, Value.isNode]) hany

/-! ## All steps -/

/-- A path is drawn as the reference says: all of it is computed before its first item. -/
theorem draws_steps (hs : h.Serves f) {operands : List Operand} (hf : ∀ o ∈ operands, o.Fits h f)
    {peers : Bool} {inputs : List Value} (ho : Origins f c peers contexts)
    (hd : Draws h (steps c access peers operands inputs (contexts.map .ok)) s d t) :
    ∃ r u, Reference h f c access (operands.map (·.meaning)) inputs contexts s r u ∧
      Draws h (ofExcept (r.map ofList)) u d t := by
  induction operands generalizing peers inputs contexts s with
  | nil => exact ⟨.ok inputs, s, .done, hd⟩
  | cons step rest ih =>
    rw [steps, List.length_map] at hd
    have hstep := hf step List.mem_cons_self
    rcases draws_fromOrigins hd with ⟨pieces, u, ht, hd⟩ | ⟨e, ht, rfl⟩
    · have hp := ht.pieces hstep
      rcases draws_arrange hs hp ho hd with ⟨ns, hns, hd | ⟨ns', e, hsub, hrun, rfl, rfl⟩⟩ |
        ⟨hne, hitems, hd⟩ | ⟨⟨v, hv, hnode, w, hw, hitem⟩, rfl, rfl⟩
      · have horigins : origins c ((f.documentOrder ns).map .node) =
            ((f.documentOrder ns).map fun n => c.focusedOn (.node n)).map .ok := by
          simp [origins, Value.isNode]
        have hpeers : keepsPeers step.traits contexts.length peers →
            f.Peers (f.documentOrder ns) := fun hk => by
          refine (hp.peers_flatten ho hk).subset fun n hn => ?_
          rw [hns, nodesIn_map]
          exact Forest.mem_documentOrder.1 hn
        rw [horigins] at hd
        obtain ⟨r, u, href, hd⟩ := ih (fun o hmem => hf o (List.mem_cons_of_mem _ hmem))
          (.inr ⟨_, rfl, f.ordered_documentOrder ns, hpeers⟩) hd
        exact ⟨r, u, .nodes ht hns href, hd⟩
      · exact ⟨.error e, t, .unanswered ht hns hsub hrun, .fail⟩
      · cases rest with
        | nil => exact ⟨.ok pieces.flatten, u, .items ht hitems, hd⟩
        | cons step' rest =>
          obtain ⟨v, vs, hvs⟩ := List.exists_cons_of_ne_nil hne
          rw [steps, hvs, origins, List.map_cons, if_neg (hitems v (hvs ▸ List.mem_cons_self)),
            fromOrigins] at hd
          obtain ⟨rfl, rfl⟩ := hd.of_fail
          exact ⟨.error stepOnItem, t, .applied ht (hvs ▸ List.mem_cons_self) hitems, .fail⟩
      · exact ⟨.error mixedResult, t, .mixed ht hv hnode hw hitem, .fail⟩
    · exact ⟨.error e, t, .failed ht, .fail⟩

/-- What a path yields is what the reference comes to. -/
theorem path_yields (hs : h.Serves f) {operands : List Operand} (hf : ∀ o ∈ operands, o.Fits h f)
    {p : Producer} (hp : path operands c access = .ok p) {vs : List Value} {e : Option Error}
    (hy : Yields h p s vs e t) :
    Reference h f c access (operands.map (·.meaning)) [] [c] s (ended vs e) t := by
  cases hp
  have hdraws : ∀ {d t}, Draws h (steps c access true operands [] [.ok c]) s d t →
      ∃ r u, Reference h f c access (operands.map (·.meaning)) [] [c] s r u ∧
        Draws h (ofExcept (r.map ofList)) u d t :=
    draws_steps hs hf (Origins.single f c true c)
  have hy : ∃ r u, Reference h f c access (operands.map (·.meaning)) [] [c] s r u ∧
      Yields h (ofExcept (r.map ofList)) u vs e t := by
    cases hy with
    | finish hd =>
      obtain ⟨r, u, href, hd⟩ := hdraws hd
      exact ⟨r, u, href, .finish hd⟩
    | failed hd =>
      obtain ⟨r, u, href, hd⟩ := hdraws hd
      exact ⟨r, u, href, .failed hd⟩
    | item hd hy =>
      obtain ⟨r, u, href, hd⟩ := hdraws hd
      exact ⟨r, u, href, .item hd hy⟩
  obtain ⟨r, u, href, hy⟩ := hy
  cases r with
  | ok ws =>
    obtain ⟨rfl, rfl, rfl⟩ := yields_ofList hy
    exact href
  | error err =>
    cases hy with
    | finish hd | item hd => cases hd
    | failed hd =>
      cases hd
      exact href

/-! ## What a path fits -/

/-- Sorted nodes of which it is said whether one lies below another and whether they lie below the
item in focus. -/
abbrev sortedTraits (peer below : Bool) : Traits :=
  { Traits.plain with peer := peer, subtree := below }

/-- Before a step, its inputs and the items in the focus of its contexts are where they are said to
be. -/
structure Stage (f : Forest) (c : Context) (peer below : Bool) (inputs : List Value)
    (contexts : List Context) : Prop where
  origins : Origins f c peer contexts
  inside : below → ∀ c' ∈ contexts, ∀ n, c'.item = some (.node n) →
    ∃ m, c.item = some (.node m) ∧ n ∈ f.walk m
  inputs : (sortedTraits peer below).Fits f c.item inputs

namespace Stage

variable {peer peer' below : Bool} {inputs : List Value} {pieces : List (List Value)}
  {ns : List Node}

theorem next (hs : Stage f c peer below inputs contexts) (hp : Pieces f step contexts pieces)
    (hn : pieces.flatten = ns.map .node)
    (hk : peer' → keepsPeers step.traits contexts.length peer) :
    Stage f c peer' (below && step.traits.subtree) ((f.documentOrder ns).map .node)
      ((f.documentOrder ns).map fun n => c.focusedOn (.node n)) := by
  have hpeer : peer' → f.Peers (f.documentOrder ns) := fun h' => by
    refine (hp.peers_flatten hs.origins (hk h')).subset fun n hmem => ?_
    rw [hn, nodesIn_map]
    exact Forest.mem_documentOrder.1 hmem
  have hbelow : below && step.traits.subtree → ∀ n ∈ f.documentOrder ns,
      ∃ m, c.item = some (.node m) ∧ n ∈ f.walk m := fun hb n hmem => by
    obtain ⟨hb, hsub⟩ := Bool.and_eq_true_iff.1 hb
    have hmem : .node n ∈ pieces.flatten :=
      hn ▸ List.mem_map_of_mem (Forest.mem_documentOrder.1 hmem)
    obtain ⟨vs, hvs, hmem⟩ := List.mem_flatten.1 hmem
    obtain ⟨c', hc', hf⟩ := hp.exists_context hvs
    obtain ⟨n', hn', hw⟩ := hf.subtree hsub n (mem_nodesIn.2 hmem)
    obtain ⟨m, hm, hw'⟩ := hs.inside hb c' hc' n' hn'
    exact ⟨m, hm, Forest.mem_walk_trans hw' hw⟩
  refine ⟨.inr ⟨_, rfl, f.ordered_documentOrder ns, hpeer⟩, fun hb c' hc' n hc => ?_, ?_⟩
  · obtain ⟨n', hn', rfl⟩ := List.mem_map.1 hc'
    cases hc
    exact hbelow hb n hn'
  · refine ⟨fun hc => (nomatch hc), fun _ => ?_, fun hr => (nomatch hr), fun h' => ?_,
      fun hb n hmem => ?_⟩
    · rw [nodesIn_map]
      exact f.ordered_documentOrder ns
    · rw [nodesIn_map]
      exact hpeer h'
    · rw [nodesIn_map] at hmem
      exact hbelow hb n hmem

end Stage

/-- Steps taken from peers give peers as long as each of them keeps them apart and stays below its
origin. -/
theorem Reference.fits {operands : List Operand} {peer below : Bool} {inputs vs : List Value}
    (hf : ∀ o ∈ operands, o.Fits h f) (hs : Stage f c peer below inputs contexts)
    (hr : Reference h f c access (operands.map (·.meaning)) inputs contexts s (.ok vs) t) :
    (sortedTraits ((operands.map (·.traits)).foldl (fun peer t => t.peer && peer && t.subtree) peer)
      (below && (operands.map (·.traits)).all (·.subtree))).Fits f c.item vs := by
  induction operands generalizing peer below inputs contexts s with
  | nil =>
    cases hr
    simpa using hs.inputs
  | cons step rest ih =>
    have hstep := hf step List.mem_cons_self
    generalize hm : (step :: rest).map (·.meaning) = ms at hr
    cases hr with
    | done => cases hm
    | nodes ht hn hr =>
      cases hm
      have hnext := hs.next (ht.pieces hstep) hn
        fun (hk : step.traits.peer && peer && step.traits.subtree) => by
          simp only [Bool.and_eq_true] at hk
          simp [keepsPeers, hk]
      have := ih (fun o ho => hf o (List.mem_cons_of_mem _ ho)) hnext hr
      simpa [Bool.and_assoc] using this
    | items _ hi => exact Traits.fits_of_items rfl rfl hi

/-- What a path gives is as its traits say. -/
theorem Reference.path_fits {operands : List Operand} {vs : List Value}
    (hf : ∀ o ∈ operands, o.Fits h f)
    (hr : Reference h f c access (operands.map (·.meaning)) [] [c] s (.ok vs) t) :
    (NaryOperator.path.traits (operands.map (·.traits))).Fits f c.item vs := by
  have start : Stage f c true true [] [c] := by
    refine ⟨.single .., fun _ c' hc' n hn => ?_, Traits.fits_nil⟩
    exact ⟨n, List.mem_singleton.1 hc' ▸ hn, f.mem_walk_self n⟩
  cases operands with
  | nil =>
    cases hr
    exact Traits.fits_nil
  | cons step rest =>
    generalize hm : (step :: rest).map (·.meaning) = ms at hr
    cases hr with
    | done => cases hm
    | items _ hi => exact Traits.fits_of_items rfl rfl hi
    | nodes ht hn hr =>
      cases hm
      have hnext := start.next (ht.pieces (hf step List.mem_cons_self)) hn
        fun (hk : step.traits.peer) => by simp [keepsPeers, hk]
      have := hr.fits (fun o ho => hf o (List.mem_cons_of_mem _ ho)) hnext
      refine Traits.Fits.sublist (fun hc => absurd hc Bool.false_ne_true) ?_ ?_ ?_
        (List.Sublist.refl vs) this
      · rfl
      · rfl
      · simp [NaryOperator.traits]

/-- A path whose steps fit their traits fits its own. -/
theorem path_fits (hs : h.Serves f) {operands : List Operand} (hf : ∀ o ∈ operands, o.Fits h f) :
    Operand.Fits h f ⟨NaryOperator.path.traits (operands.map (·.traits)), path operands⟩ := by
  intro c access p hp
  cases hp
  refine .steady fun M hM => ?_
  rw [List.nil_append]
  cases hM with
  | nil => exact Traits.fits_nil
  | @item _ q v M s t hd hM =>
    obtain ⟨r, u, href, hd⟩ := draws_steps hs hf (Origins.single f c true c) hd
    cases r with
    | error e => cases hd
    | ok vs =>
      have hpre : v :: M <+: vs := (Producer.Lists.ofList vs).loose (.item hd hM)
      exact (href.path_fits hf).sublist id rfl rfl rfl hpre.sublist

end Meaning

end XPath
