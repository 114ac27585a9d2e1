import XPath.Expr.Evaluate
import XPath.Proofs.Lazy.Promises
import XPath.Proofs.Nodes.Axes

/-!
# Results that fit their traits

The traits of an expression say in which order its nodes come and where they lie. A list of items
fits them if that is so (`Traits.Fits`), and an operand fits its own traits if all that it gives
does, in whatever pieces it is read. Leaves, logical operators and filters fit their traits when
their operands do.
-/

namespace XPath

open Producer

variable {f : Forest} {h : Host}

/-- The nodes among the items. -/
def nodesIn (vs : List Value) : List Node := vs.filterMap Value.node?

theorem nodesIn_map (ns : List Node) : nodesIn (ns.map .node) = ns := by
  simp [nodesIn, List.filterMap_map, Function.comp_def, Value.node?]

theorem nodesIn_sublist {vs ws : List Value} (hs : ws.Sublist vs) :
    (nodesIn ws).Sublist (nodesIn vs) := hs.filterMap _

/-- The items are as the traits say, when `item` is in focus. -/
structure Traits.Fits (f : Forest) (traits : Traits) (item : Option Value) (vs : List Value) :
    Prop where
  lone : traits.constant → traits.order ≠ .unsorted → vs.length ≤ 1
  sorted : traits.order = .sorted → f.Ordered (nodesIn vs)
  reverse : traits.order = .reverse → (∀ v ∈ vs, v.isNode) ∧ f.Ordered (nodesIn vs).reverse ∧
    ∀ n ∈ nodesIn vs, ∀ m ∈ nodesIn vs, f.root n = f.root m
  peer : traits.peer → f.Peers (nodesIn vs)
  subtree : traits.subtree → ∀ m ∈ nodesIn vs, ∃ n, item = some (.node n) ∧ m ∈ f.walk n

namespace Traits

variable {traits traits' : Traits} {item : Option Value} {vs ws : List Value}

/-- Parts of a list that fits some traits fit traits that say no more. -/
theorem Fits.sublist (hc : traits'.constant → traits.constant) (ho : traits'.order = traits.order)
    (hp : traits'.peer = traits.peer) (ht : traits'.subtree = traits.subtree)
    (hs : ws.Sublist vs) (hf : traits.Fits f item vs) : traits'.Fits f item ws where
  lone hc' ho' := hs.length_le.trans (hf.lone (hc hc') (ho ▸ ho'))
  sorted ho' := (hf.sorted (ho ▸ ho')).sublist (nodesIn_sublist hs)
  reverse ho' := by
    obtain ⟨hn, hr, hroot⟩ := hf.reverse (ho ▸ ho')
    have hsub := nodesIn_sublist hs
    exact ⟨fun v hv => hn v (hs.subset hv), hr.sublist hsub.reverse,
      fun n hn m hm => hroot n (hsub.subset hn) m (hsub.subset hm)⟩
  peer hp' := (hf.peer (hp ▸ hp')).subset (nodesIn_sublist hs).subset
  subtree ht' m hm := hf.subtree (ht ▸ ht') m ((nodesIn_sublist hs).subset hm)

theorem fits_of_length (ho : traits.order ≠ .reverse) (ht : traits.subtree = false)
    (hl : vs.length ≤ 1) : traits.Fits f item vs where
  lone _ _ := hl
  sorted _ := Forest.ordered_of_length ((List.length_filterMap_le ..).trans hl)
  reverse ho' := absurd ho' ho
  peer _ n hn m hm _ := by
    have hl : (nodesIn vs).length ≤ 1 := (List.length_filterMap_le ..).trans hl
    match h : nodesIn vs, hl with
    | [], _ => rw [h] at hn; cases hn
    | [x], _ =>
      rw [h] at hn hm
      rw [List.mem_singleton.1 hn, List.mem_singleton.1 hm]
  subtree ht' := by simp [ht] at ht'

theorem fits_nil : traits.Fits f item [] where
  lone _ _ := Nat.zero_le _
  sorted _ := Forest.ordered_of_length (Nat.zero_le _)
  reverse _ := ⟨by simp, Forest.ordered_of_length (Nat.zero_le _), by simp [nodesIn]⟩
  peer _ := by simp [nodesIn, Forest.Peers]
  subtree _ := by simp [nodesIn]

/-- Traits that say nothing of the nodes. -/
theorem fits_of_unsorted (ho : traits.order = .unsorted) (hp : traits.peer = false)
    (ht : traits.subtree = false) : traits.Fits f item vs where
  lone _ ho' := absurd ho ho'
  sorted ho' := by simp [ho] at ho'
  reverse ho' := by simp [ho] at ho'
  peer hp' := by simp [hp] at hp'
  subtree ht' := by simp [ht] at ht'

/-- Items among which there is no node. -/
theorem fits_of_items (hc : traits.constant = false) (ho : traits.order = .sorted)
    (hv : ∀ v ∈ vs, ¬v.isNode) : traits.Fits f item vs := by
  have hnone : nodesIn vs = [] := List.filterMap_eq_nil_iff.2 fun v hmem => by
    have := hv v hmem
    cases v <;> simp_all [Value.isNode, Value.node?]
  constructor <;> simp [hnone, hc, ho, Forest.Peers, Forest.ordered_of_length]

end Traits

/-- The operand gives what its traits say, in every context. -/
def Operand.Fits (h : Host) (f : Forest) (o : Operand) : Prop :=
  ∀ c access p, o.meaning c access = .ok p →
    Keeps h (fun _ => none) (o.traits.Fits f c.item) [] p

theorem keeps_of_lists {W : Promises} {P : List Value → Prop} {vs : List Value} {p : Producer}
    (hp : Lists h vs p) (hP : ∀ M, M <+: vs → P M) : Keeps h W P [] p :=
  .steady fun M hM => hP M (hp.loose hM)

/-! ## Leaves -/

theorem Leaf.fits (hs : h.Serves f) (op : Leaf) (static? : Option StaticContext) :
    Operand.Fits h f ⟨op.traits, op.meaning static?⟩ := by
  have lone : ∀ {traits : Traits} {item : Option Value} (v : Value), traits.order ≠ .reverse →
      traits.subtree = false → Keeps h (fun _ => none) (traits.Fits f item) [] (singleton v) :=
    fun v ho ht => keeps_of_lists (.ofList [v]) fun M hM =>
      Traits.fits_of_length ho ht (by simpa using hM.length_le)
  intro c access p hp
  cases op with
  | literal v =>
    cases hp
    exact lone v (by simp [Leaf.traits, Traits.plain]) rfl
  | contextItem =>
    simp only [Leaf.meaning] at hp
    split at hp <;> cases hp
    exact lone _ (by simp [Leaf.traits, Traits.plain]) rfl
  | variableRef name => exact .steady fun _ _ => Traits.fits_of_unsorted rfl rfl rfl
  | functionRef name arity =>
    simp only [Leaf.meaning] at hp
    split at hp
    · cases hp
    · split at hp <;> cases hp
      exact lone _ (by simp [Leaf.traits, Traits.plain]) rfl
  | step axis test =>
    simp only [Leaf.meaning] at hp
    split at hp
    case h_2 | h_3 => cases hp
    case h_1 n hn =>
      cases hp
      refine keeps_of_lists (Axis.lists_walk hs axis test n) fun M hM => ?_
      rw [hn]
      have hsub : (nodesIn M).Sublist (axis.nodes f n) := by
        have := nodesIn_sublist hM.sublist
        rw [nodesIn_map] at this
        exact this.trans List.filter_sublist
      refine ⟨fun hc => (nomatch hc), fun ho => ?_, fun ho => ⟨fun v hv => ?_, ?_, ?_⟩, fun hp => ?_,
        fun ht m hm => ⟨n, rfl, Axis.nodes_subset_walk ht (hsub.subset hm)⟩⟩
      · exact (Axis.ordered_nodes (by simpa [Leaf.traits] using ho)).sublist hsub
      · obtain ⟨m, -, rfl⟩ := List.mem_map.1 (hM.subset hv)
        rfl
      · exact (Axis.ordered_nodes_reverse (by simpa [Leaf.traits] using ho)).sublist hsub.reverse
      · intro a ha b hb
        rw [Axis.root_of_mem_nodes (hsub.subset ha), Axis.root_of_mem_nodes (hsub.subset hb)]
      · exact (Axis.peers_nodes hp).subset hsub.subset

/-! ## Logic -/

/-- A logical operator gives one item. -/
theorem Meaning.length_firstDeciding {deciding : Bool} {c : Context} {access : Access}
    {ms : List Meaning} {M : List Value} (hM : Loose h (firstDeciding deciding c access ms) M) :
    M.length ≤ 1 := by
  have single : ∀ {s v q t} (ms), Draws h (firstDeciding deciding c access ms) s (.item v q) t →
      q = .done := by
    intro s v q t ms
    induction ms generalizing s with
    | nil =>
      intro hd
      cases hd
      rfl
    | cons m ms ih =>
      intro hd
      rcases hd.of_gather with ⟨kept, u, hd⟩ | ⟨e, he⟩
      · split at hd
        · beta_reduce at hd
          split at hd
          · cases hd
            rfl
          · exact ih hd
        · cases hd
      · cases he
  cases hM with
  | nil => exact Nat.zero_le _
  | item hd hM =>
    cases single ms hd
    cases hM with
    | nil => exact Nat.le_refl _
    | item hd => cases hd

/-! ## Filters -/

namespace Verdict

/-- What is drawn from the reading of a verdict is drawn from what the verdict leads to. -/
theorem draws_read {predicate : Producer} {next : Verdict → Producer} {s t : Session} {v : Value}
    {q : Producer} (hd : Draws h (read predicate next) s (.item v q) t) :
    ∃ verdict u, Draws h (next verdict) u (.item v q) t := by
  rcases hd.of_gather with ⟨kept, u, hd⟩ | ⟨e, he⟩
  · split at hd
    · exact ⟨_, u, hd⟩
    · cases hd
  · cases he

theorem keeps_read {W : Promises} {P : List Value → Prop} {L : List Value} {predicate : Producer}
    {next : Verdict → Producer} (hL : P L) (hn : ∀ verdict, Keeps h W P L (next verdict)) :
    Keeps h W P L (read predicate next) := by
  refine .gather fun kept => ?_
  split
  · exact hn _
  · refine .steady fun M hM => ?_
    cases hM with
    | nil => rwa [List.append_nil]
    | item hd => cases hd

end Verdict

/-- A filter keeps of parts what its selector keeps of the whole. -/
theorem Meaning.filter_keeps {selector predicate : Operand} {c : Context} {access : Access}
    {P P' : List Value → Prop} {p : Producer} (parts : Parts P P') (h0 : P [])
    (hs : ∀ q, selector.meaning c access = .ok q → Keeps h (fun _ => none) P [] q)
    (hp : filter selector predicate c access = .ok p) : Keeps h (fun _ => none) P' [] p := by
  have h0' : P' [] := parts [] [] h0 (List.Sublist.refl [])
  have nothing : Keeps h (fun _ => none) P' [] .done :=
    keeps_of_lists .done fun M hM => (List.prefix_nil.1 hM) ▸ h0'
  simp only [Meaning.filter, bind, Except.bind] at hp
  split at hp
  · cases hp
  · next selected hsel =>
    have hsel := hs selected hsel
    split at hp
    · split at hp <;> cases hp
      refine Verdict.keeps_read h0' fun verdict => ?_
      split
      · unfold Meaning.atPosition
        split
        · exact .choice parts h0 hsel
        · exact nothing
      · exact hsel.weaken fun M hM => parts M M hM (List.Sublist.refl M)
      · exact nothing
    · cases hp
      refine .selection parts (fun _ i v s w q t hd => ?_) h0 hsel
      obtain ⟨verdict, u, hd⟩ := Verdict.draws_read hd
      split at hd
      · cases hd
        exact ⟨rfl, rfl⟩
      · cases hd

theorem Meaning.filter_fits {selector predicate : Operand} (hs : selector.Fits h f) :
    Operand.Fits h f ⟨BinaryOperator.filter.traits selector.traits predicate.traits,
      Meaning.filter selector predicate⟩ := by
  intro c access p hp
  have parts : Parts (selector.traits.Fits f c.item)
      ((BinaryOperator.filter.traits selector.traits predicate.traits).Fits f c.item) :=
    fun M N hM hN => hM.sublist (fun hc => (Bool.and_eq_true_iff.1 hc).1) rfl rfl rfl hN
  exact Meaning.filter_keeps parts Traits.fits_nil (hs c access) hp

end XPath
