import XPath.Proofs.Lazy.DeepSymmetry
import XPath.Proofs.Nodes.Qualifiers

/-!
# Verdicts on nodes

What the deep equality of a node with any value answers, driven to the end. A node equals no value of
another sort (`Producer.answers_other`), and nodes of different kinds are not equal unless one is a text
and the other a comment: these are compared by their data alone (`deepEqual_kinds`). Changes of a tree
that do not touch its essence are not seen (`deepEqual_changes`); a change of qualifiers is seen where it
puts attributes into another order (`deepEqual_requalified`).
-/

namespace XPath

open Producer

variable {h : Host} {f : Forest} {access : Access} {s t : Session} {a b : Node} {x : Value} {r : Bool}

/-! ## Single comparisons -/

theorem Producer.draws_verdict (r : Bool) :
    Draws h (if r then .call (.equal access []) else .singleton (.boolean false)) s
      (.item (.boolean r) .done) s := by
  cases r with
  | true => exact .call .emit
  | false => exact .emit

/-- The comparison of two nodes answers what the task comes to. -/
theorem Producer.answers_nodes (hr : (a.deepEqual b).run (access.host h) = .ok r) (s : Session) :
    (Producer.call (.equal access [.items (.node a) (.node b)])).Answers h s r :=
  Draws.answers (.call (.perform hr (draws_verdict r)))

/-- The comparison of two nodes of a forest answers whether they are deep-equal. -/
theorem Producer.answers_deepEqual (hh : h.answer = (Host.ofForest f).answer) (a b : Node) (s : Session) :
    (Producer.call (.equal .live [.items (.node a) (.node b)])).Answers h s (f.deepEqual a b) := by
  have hrun : (a.deepEqual b).run (Access.live.host h) = .ok (f.deepEqual a b) := by
    rw [Access.host, Task.run_eq_of_answer hh, Forest.deepEqual_run]
  exact answers_nodes hrun s

/-- A node and a value that is no node are not equal, in either order. -/
theorem Producer.answers_other (hx : x.node? = none) (b : Node) (s : Session) :
    (Producer.call (.equal access [.items x (.node b)])).Answers h s false ∧
      (Producer.call (.equal access [.items (.node b) x])).Answers h s false := by
  cases x with
  | node => cases hx
  | atomic | map | array | function => exact ⟨Draws.answers (.call .emit), Draws.answers (.call .emit)⟩

/-! ## Kinds -/

/-- Nodes of two kinds that are not compared differ without a question to the host. -/
theorem Node.deepEqual_run_of_kinds (hk : a.kind ≠ b.kind) (hc : areComparableLeaves a.kind b.kind = false) :
    (a.deepEqual b).run h = .ok false := by
  have hdocument : ¬(a.kind = .document ∧ b.kind = .document) := fun hab => hk (hab.1.trans hab.2.symm)
  have helement : ¬(a.kind = .element ∧ b.kind = .element) := fun hab => hk (hab.1.trans hab.2.symm)
  rw [deepEqual, equalWithin, if_neg hdocument, if_neg helement, hc]
  rfl

/-- A text or a comment. -/
def Node.IsCharacters (n : Node) : Prop := n.kind = .text ∨ n.kind = .comment

theorem Node.typedValue_run_of_characters {d : String} (ha : a.IsCharacters)
    (hd : h.answer (.data a) = .ok d) :
    ∃ v : Atomic, v.scalar = .string d ∧ (typedValue a).run h = .ok v := by
  rcases ha with ha | ha
  · refine ⟨.untyped d, rfl, ?_⟩
    simp only [typedValue, ha]
    rw [Task.run_bind_ok (a := d) (by simp [Task.data, Task.run, hd])]
    rfl
  · refine ⟨.string d, rfl, ?_⟩
    simp only [typedValue, ha]
    rw [Task.run_bind_ok (a := d) (by simp [Task.data, Task.run, hd])]
    rfl

/-- Texts and comments are compared by their data, the type of which does not count. -/
theorem Node.deepEqual_run_of_characters {d e : String} (ha : a.IsCharacters) (hb : b.IsCharacters)
    (hname : a.sameName b = true) (hd : h.answer (.data a) = .ok d) (he : h.answer (.data b) = .ok e) :
    (a.deepEqual b).run h = .ok (decide (d = e)) := by
  obtain ⟨v, hv, hrunv⟩ := typedValue_run_of_characters ha hd
  obtain ⟨w, hw, hrunw⟩ := typedValue_run_of_characters hb he
  have hdocument : ¬(a.kind = .document ∧ b.kind = .document) := fun hab => by
    rcases ha with ha | ha <;> exact nomatch ha.symm.trans hab.1
  have helement : ¬(a.kind = .element ∧ b.kind = .element) := fun hab => by
    rcases ha with ha | ha <;> exact nomatch ha.symm.trans hab.1
  have hleaves : areComparableLeaves a.kind b.kind = true := by
    rcases ha with ha | ha <;> rcases hb with hb | hb <;> rw [ha, hb] <;> rfl
  rw [deepEqual, equalWithin, if_neg hdocument, if_neg helement, if_pos hleaves, hname]
  rw [← Atomic.deepEqual_of_strings hv hw]
  simp only [Bool.not_true, Bool.false_eq_true, if_false]
  rw [Task.run_bind_ok hrunv, Task.run_bind_ok hrunw]
  rfl

/-- Nodes of different kinds are not equal, whatever they hold and whatever the host answers, unless one
is a text and the other a comment: these are equal when their data are. -/
theorem deepEqual_kinds (h : Host) (access : Access) (s : Session) (hk : a.kind ≠ b.kind) :
    (¬(a.IsCharacters ∧ b.IsCharacters) →
      (Producer.call (.equal access [.items (.node a) (.node b)])).Answers h s false) ∧
    (a.IsCharacters → b.IsCharacters → a.sameName b = true → ∀ d e : String,
      (access.host h).answer (.data a) = .ok d → (access.host h).answer (.data b) = .ok e →
      (Producer.call (.equal access [.items (.node a) (.node b)])).Answers h s (decide (d = e))) := by
  refine ⟨fun hc => ?_, fun ha hb hname d e hd he => ?_⟩
  · have hleaves : Node.areComparableLeaves a.kind b.kind = false := by
      rw [Node.IsCharacters, Node.IsCharacters] at hc
      cases ha : a.kind <;> cases hb : b.kind <;> simp_all [Node.areComparableLeaves]
    exact Producer.answers_nodes (Node.deepEqual_run_of_kinds hk hleaves) s
  · exact Producer.answers_nodes (Node.deepEqual_run_of_characters ha hb hname hd he) s

/-- An element and a document with the same content differ, also where the host fails. -/
theorem deepEqual_kinds_failing :
    let f : Forest := [.element ⟨none, "r", none⟩ [] [.text "x"], .document [.text "x"]]
    let h := (Host.ofForest f).deferred.failing fun _ => some Host.noDocument
    let element : Node := ⟨0, [], .element, some ⟨none, "r", none⟩, 1⟩
    let document : Node := ⟨1, [], .document, none, 1⟩
    (Producer.call (.equal .live [.items (.node element) (.node document)])).Answers h .empty false := by
  intro f h element document
  have hcharacters : ¬(element.IsCharacters ∧ document.IsCharacters) := by
    rintro ⟨ha | ha, -⟩ <;> cases ha
  exact (deepEqual_kinds (a := element) (b := document) h .live .empty nofun).1 hcharacters

/-- A text is equal to a comment with the same data. -/
theorem deepEqual_text_comment :
    let f : Forest := [.text "x", .comment "x"]
    let text : Node := ⟨0, [], .text, none, 0⟩
    let comment : Node := ⟨1, [], .comment, none, 0⟩
    text.kind ≠ comment.kind ∧ f.subtree? text = some (.text "x") ∧
      f.subtree? comment = some (.comment "x") ∧
      (Producer.call (.equal .live [.items (.node text) (.node comment)])).Answers (.ofForest f) .empty
        true := by
  intro f text comment
  exact ⟨nofun, rfl, rfl, Producer.answers_nodes rfl _⟩

/-! ## Changes that are not seen -/

/-- Two deep-equal nodes are compared alike with every value, from either side. -/
theorem Producer.answers_of_deepEqual (hh : h.answer = (Host.ofForest f).answer)
    (hab : f.deepEqual a b) (x : Value) (s : Session) :
    (∃ r, (Producer.call (.equal .live [.items x (.node a)])).Answers h s r ∧
        (Producer.call (.equal .live [.items x (.node b)])).Answers h s r) ∧
      ∃ r, (Producer.call (.equal .live [.items (.node a) x])).Answers h s r ∧
        (Producer.call (.equal .live [.items (.node b) x])).Answers h s r := by
  cases hx : x.node? with
  | none =>
    exact ⟨⟨false, (answers_other hx a s).1, (answers_other hx b s).1⟩,
      ⟨false, (answers_other hx a s).2, (answers_other hx b s).2⟩⟩
  | some c =>
    obtain rfl : x = .node c := by
      cases x with
      | node => exact congrArg _ (Option.some.inj hx)
      | _ => cases hx
    refine ⟨⟨f.deepEqual c a, answers_deepEqual hh c a s, ?_⟩, ⟨f.deepEqual c a, ?_, ?_⟩⟩
    · rw [Forest.deepEqual_congr hab]
      exact answers_deepEqual hh c b s
    · rw [Forest.deepEqual_comm]
      exact answers_deepEqual hh a c s
    · rw [Forest.deepEqual_congr hab, Forest.deepEqual_comm]
      exact answers_deepEqual hh b c s

/-- Changes that put attributes into another order, add or take away namespace declarations, and insert
or remove comments and processing instructions are not seen from any value, on either side and however
often the host suspends, where no two attributes of an element are written alike. -/
theorem deepEqual_changes (hh : h.answer = (Host.ofForest f).answer) {y y' : Node} {t t' : Tree}
    (hy : f.subtree? y = some t) (hy' : f.subtree? y' = some t') (ht : t.DistinctBy QName.label)
    (hchanges : t.Changes t') (x : Value) (s : Session) :
    (∃ r, (Producer.call (.equal .live [.items x (.node y)])).Answers h s r ∧
        (Producer.call (.equal .live [.items x (.node y')])).Answers h s r) ∧
      ∃ r, (Producer.call (.equal .live [.items (.node y) x])).Answers h s r ∧
        (Producer.call (.equal .live [.items (.node y') x])).Answers h s r := by
  have hequal : f.deepEqual y y' := (Forest.deepEqual_iff hy hy').2 (hchanges.alike.essence ht)
  exact Producer.answers_of_deepEqual hh hequal x s

/-- A document and the same with attributes exchanged, a namespace declared, a comment removed and, one
level below, an instruction inserted, over a host that suspends on every topic. -/
theorem deepEqual_changed_document :
    let a : QName := ⟨none, "a", none⟩
    let b : QName := ⟨some "p", "a", some "u"⟩
    let xmlns : QName := ⟨some "xmlns", "p", some Uri.xmlns⟩
    let below : Tree := .element ⟨none, "e", none⟩ [] [.text "x"]
    let below' : Tree := .element ⟨none, "e", none⟩ [] [.instruction "t" "d", .text "x"]
    let t : Tree := .document [.element ⟨none, "r", none⟩ [(b, "1"), (a, "2")] [.comment "c", below]]
    let t' : Tree := .document [.element ⟨none, "r", none⟩ [(a, "2"), (xmlns, "u"), (b, "1")] [below']]
    let f : Forest := [t, t']
    let h := (Host.ofForest f).deferred
    let y : Node := ⟨0, [], .document, none, 3⟩
    let y' : Node := ⟨1, [], .document, none, 3⟩
    h.answer = (Host.ofForest f).answer ∧ f.subtree? y = some t ∧ f.subtree? y' = some t' ∧
      t.DistinctBy QName.label ∧ t.Changes t' ∧
      (∃ r, (Producer.call (.equal .live [.items (.node y) (.node y)])).Answers h .empty r ∧
        (Producer.call (.equal .live [.items (.node y) (.node y')])).Answers h .empty r) ∧
      ∃ r, (Producer.call (.equal .live [.items (.node y) (.node y)])).Answers h .empty r ∧
        (Producer.call (.equal .live [.items (.node y') (.node y)])).Answers h .empty r := by
  intro a b xmlns below below' t t' f h y y'
  have hdistinct : t.DistinctBy QName.label := by
    simp [t, below, Tree.DistinctBy, Tree.AllDistinctBy, Tree.counted, a, b, Uri.xmlns, QName.label]
  have hexchange : Tree.Change t
      (.document [.element ⟨none, "r", none⟩ [(a, "2"), (b, "1")] [.comment "c", below]]) :=
    @Tree.Change.withinDocument [] _ _ [] (.permute (.swap ..))
  have hdeclare : Tree.Change
      (.document [.element ⟨none, "r", none⟩ [(a, "2"), (b, "1")] [.comment "c", below]])
      (.document [.element ⟨none, "r", none⟩ [(a, "2"), (xmlns, "u"), (b, "1")] [.comment "c", below]]) :=
    @Tree.Change.withinDocument [] _ _ [] (@Tree.Change.declare _ [(a, "2")] _ _ _ rfl)
  have hremove : Tree.Change
      (.document [.element ⟨none, "r", none⟩ [(a, "2"), (xmlns, "u"), (b, "1")] [below]])
      (.document [.element ⟨none, "r", none⟩ [(a, "2"), (xmlns, "u"), (b, "1")] [.comment "c", below]]) :=
    @Tree.Change.withinDocument [] _ _ [] (@Tree.Change.annotateElement _ _ [] _ _ (.inl rfl))
  have hinsert : Tree.Change
      (.document [.element ⟨none, "r", none⟩ [(a, "2"), (xmlns, "u"), (b, "1")] [below]]) t' :=
    @Tree.Change.withinDocument [] _ _ [] (@Tree.Change.withinElement _ _ [] _ _ []
      (@Tree.Change.annotateElement _ _ [] _ _ (.inr rfl)))
  have hchanges : t.Changes t' :=
    .trans _ _ _ (.rel _ _ hexchange) (.trans _ _ _ (.rel _ _ hdeclare)
      (.trans _ _ _ (.symm _ _ (.rel _ _ hremove)) (.rel _ _ hinsert)))
  exact ⟨rfl, rfl, rfl, hdistinct, hchanges,
    deepEqual_changes (h := h) (f := f) rfl rfl rfl hdistinct hchanges (.node y) .empty⟩

/-! ## Qualifiers -/

/-- To every node below one of two nodes that differ in qualifiers alone corresponds a node below the
other, and the two are equal exactly when at every two corresponding elements the attributes come into
one order by their written names. -/
theorem deepEqual_requalified (hh : h.answer = (Host.ofForest f).answer) {n m : Node} {t u : Tree}
    (hn : f.subtree? n = some t) (hm : f.subtree? m = some u) (hbare : t.bare = u.bare)
    (hdistinct : t.DistinctBy QName.expanded) {down : List Descent}
    (ha : f.node? n.tree (down ++ n.path) = some a) (s : Session) :
    ∃ b v w r, f.node? m.tree (down ++ m.path) = some b ∧ f.subtree? a = some v ∧
      f.subtree? b = some w ∧
      (Producer.call (.equal .live [.items (.node a) (.node b)])).Answers h s r ∧
      (r = true ↔ v.InLine w) := by
  obtain ⟨b, v, w, hb, hv, hw, hvw⟩ := Forest.requalified_below hn hm ⟨hbare, hdistinct⟩ ha
  refine ⟨b, v, w, f.deepEqual a b, hb, hv, hw, Producer.answers_deepEqual hh a b s, ?_⟩
  rw [Forest.deepEqual_iff hv hw, hvw.essence_iff]

/-- The elements below two documents, the attributes of which keep their order although one of them
loses its qualifier, over a host that suspends on every topic. -/
theorem deepEqual_requalified_below :
    let a (p : Option String) : QName := ⟨p, "a", some "u"⟩
    let b : QName := ⟨some "q", "b", some "v"⟩
    let t : Tree := .document [.element ⟨none, "r", none⟩ [(b, "2"), (a (some "p"), "1")] [.text "x"]]
    let u : Tree := .document [.element ⟨some "s", "r", none⟩ [(b, "2"), (a none, "1")] [.text "x"]]
    let f : Forest := [t, u]
    let h := (Host.ofForest f).deferred
    let n : Node := ⟨0, [], .document, none, 2⟩
    let m : Node := ⟨1, [], .document, none, 2⟩
    let element : Node := ⟨0, [.child 0], .element, some ⟨none, "r", none⟩, 1⟩
    h.answer = (Host.ofForest f).answer ∧ f.subtree? n = some t ∧ f.subtree? m = some u ∧
      t.bare = u.bare ∧ t.DistinctBy QName.expanded ∧
      f.node? n.tree ([.child 0] ++ n.path) = some element ∧
      ∃ b v w r, f.node? m.tree ([.child 0] ++ m.path) = some b ∧ f.subtree? element = some v ∧
        f.subtree? b = some w ∧
        (Producer.call (.equal .live [.items (.node element) (.node b)])).Answers h .empty r ∧
        (r = true ↔ v.InLine w) := by
  intro a b t u f h n m element
  have hdistinct : t.DistinctBy QName.expanded := by
    simp [t, Tree.DistinctBy, Tree.AllDistinctBy, Tree.counted, a, b, Uri.xmlns, QName.expanded]
  exact ⟨rfl, rfl, rfl, rfl, hdistinct, rfl,
    deepEqual_requalified (h := h) (f := f) (n := n) (m := m) rfl rfl rfl rfl hdistinct rfl .empty⟩

/-- Two attributes exchange their qualifiers, in no namespace or both in one. -/
theorem deepEqual_exchanged_qualifiers :
    let t (uri : Option String) : Tree :=
      .element ⟨none, "r", none⟩ [(⟨some "p", "a", uri⟩, "1"), (⟨some "q", "b", uri⟩, "2")] []
    let u (uri : Option String) : Tree :=
      .element ⟨none, "r", none⟩ [(⟨some "q", "a", uri⟩, "1"), (⟨some "p", "b", uri⟩, "2")] []
    let n : Node := ⟨0, [], .element, some ⟨none, "r", none⟩, 1⟩
    let m : Node := ⟨1, [], .element, some ⟨none, "r", none⟩, 1⟩
    let differ (uri : Option String) : Prop :=
      let f : Forest := [t uri, u uri]
      (t uri).bare = (u uri).bare ∧ (t uri).DistinctBy QName.expanded ∧
        f.subtree? n = some (t uri) ∧ f.subtree? m = some (u uri) ∧
        (Producer.call (.equal .live [.items (.node n) (.node m)])).Answers (.ofForest f) .empty false
    differ none ∧ differ (some "u") := by
  intro t u n m differ
  have hdiffer (uri : Option String) (huri : uri ≠ some Uri.xmlns) : differ uri := by
    have hdistinct : (t uri).DistinctBy QName.expanded := by
      simp [t, Tree.DistinctBy, Tree.AllDistinctBy, Tree.counted, huri, QName.expanded]
    have hrequalified : (t uri).Requalified (u uri) := ⟨rfl, hdistinct⟩
    have hequal : Forest.deepEqual [t uri, u uri] n m = false := by
      rw [Bool.eq_false_iff]
      intro hequal
      refine Tree.not_inLine_exchanged huri (hrequalified.essence_iff.1 ?_)
      exact (Forest.deepEqual_iff rfl rfl).1 hequal
    refine ⟨rfl, hdistinct, rfl, rfl, ?_⟩
    rw [← hequal]
    exact Producer.answers_deepEqual rfl n m _
  exact ⟨hdiffer none (by decide), hdiffer (some "u") (by decide)⟩

end XPath
