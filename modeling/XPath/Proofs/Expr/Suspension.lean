import XPath.Proofs.Lazy.Reading

/-!
# Suspension

What an expression delivers does not depend on how often the host suspends. Two hosts that answer
alike may be late on different questions and at different times; a reader that waits for every
suspension gets the same items over both of them, or the same error, and leaves the same cells, log
and counts behind.
-/

namespace XPath

variable {h h' : Host}

/-- What a prepared expression delivers over one host it delivers over the other. -/
theorem Expr.deliver_follows (hh : h.answer = h'.answer) (e : Expr) (fuel : Nat) :
    Snapshot.Follows (e.deliver h fuel) (fun fuel => e.deliver h' fuel) := by
  intro c s r t hd u hu
  rw [deliver] at hd
  simp only [deliver]
  cases he : e.evaluate c .live with
  | error err =>
    rw [he] at hd
    cases hd
    exact ⟨0, u, hu, fun _ _ => rfl⟩
  | ok p =>
    rw [he] at hd
    exact (Snapshot.ofValue_follows hh fuel).drained hh fuel p s r t hd u hu

/-- Suspension is transparent: an expression that is prepared and evaluated delivers the same over
hosts that answer alike. -/
theorem Expr.deliver_iff_of_answer_eq (hh : h.answer = h'.answer) (static : StaticContext)
    (limit : Nat) (e : Expr) (c : Context) (s t : Session)
    (r : Except Error (List Snapshot)) :
    (∃ fuel u, u.calm = t ∧
      (e.prepare static limit s).1.deliver h fuel c (e.prepare static limit s).2 = some (r, u)) ↔
    (∃ fuel u, u.calm = t ∧
      (e.prepare static limit s).1.deliver h' fuel c (e.prepare static limit s).2 =
        some (r, u)) := by
  generalize e.prepare static limit s = prepared
  obtain ⟨e, s⟩ := prepared
  constructor
  · rintro ⟨fuel, u, rfl, hd⟩
    obtain ⟨fuel, w, hw, hd⟩ := e.deliver_follows hh fuel c s r u hd s rfl
    exact ⟨fuel, w, hw, hd fuel (Nat.le_refl _)⟩
  · rintro ⟨fuel, u, rfl, hd⟩
    obtain ⟨fuel, w, hw, hd⟩ := e.deliver_follows hh.symm fuel c s r u hd s rfl
    exact ⟨fuel, w, hw, hd fuel (Nat.le_refl _)⟩

/-- Over a host that suspends on every topic, an array of the children of an element is delivered
with its member read. -/
theorem deliver_children_deferred :
    let forest : Forest := [.element ⟨none, "r", none⟩ [] [.text "x"]]
    let c := Context.initial (some (.node ⟨0, [], .element, some ⟨none, "r", none⟩, 1⟩)) []
    let e := Expr.operator .squareArray [.step .child .anyKind]
    let prepared := e.prepare ⟨.standard, .empty⟩ 1 .empty
    (Host.ofForest forest).answer = (Host.ofForest forest).deferred.answer ∧
      ∃ fuel u, prepared.1.deliver (Host.ofForest forest).deferred fuel c prepared.2 =
        some (.ok [.array [.ok [.node ⟨0, [.child 0], .text, none, 0⟩]]], u) := by
  intro forest c e prepared
  have prompt : (prepared.1.deliver (Host.ofForest forest) 8 c prepared.2).map (·.1) =
      some (.ok [.array [.ok [.node ⟨0, [.child 0], .text, none, 0⟩]]]) := by rfl
  obtain ⟨⟨r, u⟩, hu, rfl⟩ := Option.map_eq_some_iff.1 prompt
  have alike : (Host.ofForest forest).answer = (Host.ofForest forest).deferred.answer := rfl
  obtain ⟨fuel, w, -, hw⟩ := (Expr.deliver_iff_of_answer_eq alike ⟨.standard, .empty⟩ 1 e c .empty
    u.calm _).1 ⟨8, u, rfl, hu⟩
  exact ⟨alike, fuel, w, hw⟩

end XPath
