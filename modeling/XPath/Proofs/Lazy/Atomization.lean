import XPath.Proofs.Lazy.Provision
import XPath.Proofs.Lazy.Unnesting
import XPath.Proofs.Nodes.Axes
import XPath.Proofs.Nodes.Essence

/-!
# Atomization of sequences

The string value of a document or an element is all text below it, in document order; over a host that
answers about a forest this is what the walk downwards gathers (`Node.textContent_run`), and for a node
of the forest it is the string value of its subtree (`Forest.stringValue_eq`). Atomizing a sequence gives
the data of what is read depth first, up to the first item that has none
(`Producer.atomize_provides_data`).
-/

namespace XPath

/-! ## String values -/

namespace Forest

variable {f : Forest} {n : Node} {t : Tree}

/-- The data of the text nodes among some nodes, one after the other. -/
def textOf (f : Forest) (ns : List Node) : String :=
  String.join ((ns.filter (·.kind = .text)).map f.data)

/-- All text below a document or an element, in document order; the data of any other node. -/
def stringValue (f : Forest) (n : Node) : String :=
  if n.kind.isParent then f.textOf (f.descendants n) else f.data n

/-- The string value, as a string for comments and processing instructions, else untyped. -/
def typedValue (f : Forest) (n : Node) : Atomic :=
  if n.kind = .comment ∨ n.kind = .processingInstruction then .string (f.stringValue n)
  else .untyped (f.stringValue n)

/-- The atomic value of an item. Arrays, maps and functions have none. -/
def datum? (f : Forest) : Value → Option Atomic
  | .atomic a => some a
  | .node n => some (f.typedValue n)
  | _ => none

theorem textOf_append (f : Forest) (ns ms : List Node) :
    f.textOf (ns ++ ms) = f.textOf ns ++ f.textOf ms := by
  rw [textOf, List.filter_append, List.map_append, String.join_append]
  rfl

theorem textOf_cons_of_text (hn : n.kind = .text) (ns : List Node) :
    f.textOf (n :: ns) = f.data n ++ f.textOf ns := by
  rw [textOf, List.filter_cons_of_pos (by simpa using hn), List.map_cons, String.join_cons]
  rfl

theorem textOf_cons_of_not_text (hn : n.kind ≠ .text) (ns : List Node) :
    f.textOf (n :: ns) = f.textOf ns := by
  rw [textOf, List.filter_cons_of_neg (by simpa using hn)]
  rfl

theorem not_text_of_isParent (hn : n.kind.isParent) : n.kind ≠ .text := fun h => by
  rw [h] at hn
  cases hn

theorem descendants_of_not_isParent (hn : ¬n.kind.isParent) : f.descendants n = [] := by
  rw [descendants_eq, Axis.children_of_not_isParent hn, List.flatMap_nil]

/-- The text in nodes that stand for trees is that in the trees. -/
theorem textOf_self_descendants (ht : f.subtree? n = some t) :
    f.textOf (n :: f.descendants n) = t.textContent := by
  induction n using listed_induction (f := f) generalizing t with
  | up n ih =>
    have hkind := kind_of_subtree? ht
    have below : ∀ {ns ts}, f.Stand ns ts → (∀ c ∈ ns, c ∈ f.children n) →
        f.textOf (ns.flatMap fun c => c :: f.descendants c) = Tree.textContents ts := by
      intro ns ts hstand
      induction hstand with
      | nil => exact fun _ => rfl
      | cons hc _ ih' =>
        intro hns
        rw [List.forall_mem_cons] at hns
        rw [List.flatMap_cons, textOf_append, ih' hns.2, Tree.textContents,
          ih _ (List.mem_append_right _ hns.1) hc]
    have hbelow := below (stand_children ht) fun _ => id
    rw [← descendants_eq] at hbelow
    cases t with
    | text d =>
      rw [textOf_cons_of_text hkind, hbelow, data, ht]
      exact String.append_empty
    | _ =>
      rw [textOf_cons_of_not_text (by simp [hkind, Tree.kind]), hbelow]
      rfl

/-- The string value of a node of the forest is that of its subtree. -/
theorem stringValue_eq (ht : f.subtree? n = some t) : f.stringValue n = t.stringValue := by
  have hkind := kind_of_subtree? ht
  rw [stringValue]
  split
  case isTrue hn =>
    rw [← textOf_cons_of_not_text (not_text_of_isParent hn), textOf_self_descendants ht]
    rw [hkind] at hn
    cases t <;> first | rfl | cases hn
  case isFalse => rw [data, ht]

end Forest

namespace Node

open Forest

variable {f : Forest} {n : Node} {cs : List Node}

theorem textContent_of_isParent (hn : n.kind.isParent) (fuel : Nat) :
    textContent (fuel + 1) n = (do
      let children ← Task.children n
      Task.foldl (fun text c => do return text ++ (← textContent fuel c)) "" children) := by
  conv => lhs; unfold textContent
  cases hk : n.kind <;> first | rfl | cases hk ▸ hn

theorem textContents_run {fuel : Nat} (hcs : ∀ c ∈ cs,
      (textContent fuel c).run (.ofForest f) = .ok (f.textOf (c :: f.descendants c))) (text : String) :
    (Task.foldl (fun text c => do return text ++ (← textContent fuel c)) text cs).run (.ofForest f) =
      .ok (text ++ f.textOf (cs.flatMap fun c => c :: f.descendants c)) := by
  induction cs generalizing text with
  | nil => exact congrArg Except.ok String.append_empty.symm
  | cons c cs ih =>
    rw [List.forall_mem_cons] at hcs
    have hstep : (do return text ++ (← textContent fuel c)).run (.ofForest f) =
        .ok (text ++ f.textOf (c :: f.descendants c)) := Task.run_bind_ok hcs.1 _
    refine (Task.run_bind_ok hstep _).trans ?_
    rw [ih hcs.2, List.flatMap_cons, textOf_append, String.append_assoc]

theorem textContent_leaf_run (hn : ¬n.kind.isParent) (fuel : Nat) :
    (textContent fuel n).run (.ofForest f) = .ok (f.textOf (n :: f.descendants n)) := by
  rw [descendants_of_not_isParent hn]
  by_cases htext : n.kind = .text
  · have hrun : (Task.data n).run (.ofForest f) = .ok (f.data n) := rfl
    rw [textOf_cons_of_text htext, show f.textOf [] = "" from rfl, String.append_empty, ← hrun]
    unfold textContent
    rw [htext]
  · rw [textOf_cons_of_not_text htext]
    unfold textContent
    cases hk : n.kind <;> first | rfl | exact absurd hk htext | exact absurd (hk ▸ rfl) hn

/-- The walk downwards gathers the text of a node and of all nodes below it. -/
theorem textContent_run {fuel : Nat} (hf : n.height ≤ fuel) :
    (textContent fuel n).run (.ofForest f) = .ok (f.textOf (n :: f.descendants n)) := by
  induction fuel generalizing n with
  | zero =>
    by_cases hn : n.kind.isParent
    case neg => exact textContent_leaf_run hn 0
    have hchildren : f.children n = [] := List.eq_nil_iff_forall_not_mem.2 fun c hc => by
      have := children_height hc
      omega
    rw [textOf_cons_of_not_text (not_text_of_isParent hn), descendants_eq, hchildren]
    unfold textContent
    cases hk : n.kind <;> first | rfl | cases hk ▸ hn
  | succ fuel ih =>
    by_cases hn : n.kind.isParent
    case neg => exact textContent_leaf_run hn (fuel + 1)
    have hbelow : ∀ c ∈ f.children n, (textContent fuel c).run (.ofForest f) =
        .ok (f.textOf (c :: f.descendants c)) := fun c hc => ih (by
      have := children_height hc
      omega)
    have hchildren : (Task.children n).run (.ofForest f) = .ok (f.children n) := rfl
    rw [textOf_cons_of_not_text (not_text_of_isParent hn), descendants_eq,
      textContent_of_isParent hn, Task.run_bind_ok hchildren, textContents_run hbelow,
      String.empty_append]

/-- What the host is asked for is the typed value in the forest. -/
theorem typedValue_forest_run (f : Forest) (n : Node) :
    n.typedValue.run (.ofForest f) = .ok (f.typedValue n) := by
  have hdata : (Task.data n).run (.ofForest f) = .ok (f.data n) := rfl
  by_cases hn : n.kind.isParent
  · have htext := textContent_run (f := f) (Nat.le_refl n.height)
    rw [textOf_cons_of_not_text (not_text_of_isParent hn)] at htext
    rw [typedValue, Forest.typedValue, stringValue, if_pos hn]
    cases hk : n.kind <;> first | exact Task.run_bind_ok htext _ | cases hk ▸ hn
  · rw [typedValue, Forest.typedValue, stringValue, if_neg hn]
    cases hk : n.kind <;> first | exact Task.run_bind_ok hdata _ | cases hn (hk ▸ rfl)

end Node

/-! ## Data of items -/

namespace Producer

variable {h : Host} {f : Forest} {p : Producer} {s t : Session} {v : Value} {vs : List Value}
  {as : List Atomic} {e : Option Error}

/-- An item that has a datum gives it. -/
theorem atomized_draws (hs : h.answer = (Host.ofForest f).answer) {a : Atomic}
    (hv : f.datum? v = some a) (s : Session) :
    Draws h (perform .live v.atomized fun a => singleton (.atomic a)) s (.item (.atomic a) .done) s := by
  refine .perform (a := a) ?_ .emit
  rw [Access.host, Task.run_eq_of_answer hs]
  cases v with
  | atomic => exact congrArg Except.ok (Option.some.inj hv)
  | node n => exact (Node.typedValue_forest_run f n).trans (congrArg Except.ok (Option.some.inj hv))
  | _ => cases hv

/-- An item that is no array and has no datum is a map or a function, and gives an error. -/
theorem atomized_fails (hv : f.datum? v = none) (hleaf : v.isLeaf) :
    ((∃ entries, v = .map entries) ∨ ∃ g, v = .function g) ∧
      ∀ s, Draws h (perform .live v.atomized fun a => singleton (.atomic a)) s
        (.failed (noAtomicValue v)) s := by
  cases v with
  | map entries => exact ⟨.inl ⟨entries, rfl⟩, fun _ => .fail⟩
  | function g => exact ⟨.inr ⟨g, rfl⟩, fun _ => .fail⟩
  | array => cases hleaf
  | _ => cases hv

theorem forall₂_atomized (hs : h.answer = (Host.ofForest f).answer)
    (has : vs.map f.datum? = as.map some) :
    List.Forall₂ (fun v w => ∀ s, Draws h (perform .live v.atomized fun a => singleton (.atomic a)) s
      (.item w .done) s) vs (as.map .atomic) := by
  rw [← List.forall₂_eq_eq_eq, List.forall₂_map_left_iff, List.forall₂_map_right_iff] at has
  rw [List.forall₂_map_right_iff]
  exact has.imp fun _ _ hv => atomized_draws hs hv

/-- Over a host that answers about a forest and suspends as it likes, let a producer be read depth first up
to its end or an error. If all that is read has data, these are what atomization provides, with the same
end. Otherwise the first item that has none is a map or a function, and an error comes in its place. The
string value that makes the datum of a node is, for a node of the forest, that of its subtree. -/
theorem atomize_provides_data (hs : h.answer = (Host.ofForest f).answer)
    (hp : Unnests h p s.calm vs e t) :
    (∀ as : List Atomic, vs.map f.datum? = as.map some →
      (atomize .live p).Provides h s (as.map .atomic) e) ∧
    (∀ (before after : List Value) (v : Value) (as : List Atomic), vs = before ++ v :: after →
      before.map f.datum? = as.map some → f.datum? v = none →
      ((∃ entries, v = .map entries) ∨ ∃ g, v = .function g) ∧
        (noAtomicValue v).code = .FOTY0013 ∧
        (atomize .live p).Provides h s (as.map .atomic) (some (noAtomicValue v))) ∧
    ∀ n u, f.subtree? n = some u → f.stringValue n = u.stringValue := by
  refine ⟨fun as has => ?_, ?_, fun n u => Forest.stringValue_eq⟩
  · exact (hp.flatten.flatMap_items (forall₂_atomized hs has)).provides rfl
  · rintro before after v as rfl has hv
    obtain ⟨hkind, hfails⟩ := atomized_fails hv (hp.isLeaf v (by simp))
    obtain ⟨u, hu⟩ := hp.flatten.flatMap_failed (forall₂_atomized hs has) hfails
    exact ⟨hkind, rfl, hu.provides rfl⟩

/-- An element with text at two depths and a comment between them stands in an array, before an empty
array; the comment and a function follow. The host suspends before every answer. -/
theorem atomize_provides_data_nested :
    let forest : Forest :=
      [.element ⟨none, "r", none⟩ [] [.text "x", .comment "c",
        .element ⟨none, "e", none⟩ [] [.text "y"]]]
    let host : Host := { Host.ofForest forest with delay := fun _ _ => 1 }
    let r : Node := ⟨0, [], .element, some ⟨none, "r", none⟩, 2⟩
    let c : Node := ⟨0, [.child 1], .comment, none, 0⟩
    let g : Function := .builtin .innermost
    let p := ofList [.array [.listed [.node r, .array []]], .node c, .function g, .atomic (.integer 3)]
    (atomize .live p).Provides host .empty [.atomic (.untyped "xy"), .atomic (.string "c")]
      (some (noAtomicValue (.function g))) := by
  intro forest host r c g p
  have hempty : Unnests host (readers []) Session.empty.calm [] none Session.empty.calm := .finish .done
  have hmembers : Unnests host (readers [.listed [.node r, .array []]]) Session.empty.calm [.node r] none
      Session.empty.calm :=
    .leaf (.append_item .emit) rfl
      (.array (.append_item .emit) hempty (.finish (.append_finish .done .done)))
  have hp : Unnests host p Session.empty.calm [.node r, .node c, .function g, .atomic (.integer 3)] none
      Session.empty.calm :=
    .array .emit hmembers (.leaf .emit rfl (.leaf .emit rfl (.leaf .emit rfl (.finish .done))))
  have hdata : [Value.node r, .node c].map forest.datum? =
      [Atomic.untyped "xy", .string "c"].map some := by decide +kernel
  obtain ⟨-, hfails, -⟩ := atomize_provides_data (h := host) (f := forest) (s := .empty) rfl hp
  exact (hfails _ _ (.function g) _ rfl hdata rfl).2.2

end Producer

end XPath
