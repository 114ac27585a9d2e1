import Mathlib.Algebra.GroupWithZero.Nat
import XPath.Proofs.Lazy.Combinators
import XPath.Proofs.Lazy.Courses
import XPath.Proofs.Lazy.Waiting

/-!
# Running on a course

A producer runs on a course if it gives the items of the course and ends as the course does, whatever
else has been read meanwhile. It may read cells of ranks below `n`, which run on courses themselves, and
put sequences into new ones. All this advances counted sources only so often: an account of a session
says how often each cell may still do so, and what is spent on a cell is taken from its own budget
(`Account.bound`).
-/

namespace XPath

open Producer

/-- A session, what its cells come to, and how often each may still advance counted sources. -/
structure Account where
  session : Session
  courses : Courses
  budgets : Nat → Nat

/-- How often counted sources have been advanced once all budgets are spent. -/
def Account.bound (a : Account) : Nat :=
  a.session.pulls + ((List.range a.session.cells.size).map a.budgets).sum

/-! ## Definition -/

/-- The step from one account to another leaves all cells alone but those with courses of ranks below
`n`, and new ones. -/
structure Moves (n : Nat) (a b : Account) : Prop where
  keeps : a.courses.Extends b.courses
  fresh : ∀ c r o, a.courses c = none → b.courses c = some (r, o) →
    r < n ∧ a.session.cells.size ≤ c
  frame : ∀ c < a.session.cells.size, (∀ r o, a.courses c = some (r, o) → n ≤ r) →
    b.session.cells[c]? = a.session.cells[c]? ∧ b.budgets c = a.budgets c
  size : a.session.cells.size ≤ b.session.cells.size

/-- Some of the items of the course have been read from the cell, and its source runs on the rest. -/
def Cell.OnCourse (runs : Nat → Courses → Producer → Course → Prop) (w : Nat) (Ψ : Courses)
    (o : Course) (cell : Cell) : Prop :=
  ∃ vs, o.1 = cell.items.toList ++ vs ∧
    ((∃ p, cell.source = some p ∧ cell.error = none ∧ runs w Ψ p (vs, o.2)) ∨
      (vs = [] ∧ cell.source = none ∧ cell.error = o.2))

/-- What is drawn at the end of a course. -/
def Draw.ending : Option Error → Draw
  | none => .finish
  | some e => .failed e

/-- Running on a course while the accounts are as `holds` says. -/
def Producer.RunsWhile (h : Host) (n : Nat) (holds : Account → Prop) (e : Option Error) :
    List Value → Nat → Courses → Producer → Prop
  | [], w, Ψ, p => ∀ a, Ψ.Extends a.courses → holds a → ∃ b,
      Moves n a b ∧ holds b ∧ b.bound ≤ a.bound + w ∧ Draws h p a.session (.ending e) b.session
  | v :: vs, w, Ψ, p => ∀ a, Ψ.Extends a.courses → holds a → ∃ q b w',
      Moves n a b ∧ holds b ∧ b.bound + w' ≤ a.bound + w ∧
        Draws h p a.session (.item v q) b.session ∧ q.RunsWhile h n holds e vs w' b.courses

/-- The producer runs on the course as long as the cells of lower ranks do, and advances counted
sources `w` times at most. -/
def Producer.Runs (h : Host) (n : Nat) (w : Nat) (Ψ : Courses) (p : Producer) (o : Course) : Prop :=
  p.RunsWhile h n (fun a => ∀ c r o, a.courses c = some (r, o) → c < a.session.cells.size ∧
    ∀ _ : r < n, ∃ cell, a.session.cells[c]? = some cell ∧
      cell.OnCourse (Runs h r) (a.budgets c) a.courses o) o.2 o.1 w Ψ
termination_by n

/-- All cells with courses exist, and those of ranks below `n` are on their courses. -/
def Account.OnCourse (h : Host) (n : Nat) (a : Account) : Prop :=
  ∀ c r o, a.courses c = some (r, o) → c < a.session.cells.size ∧
    (r < n → ∃ cell, a.session.cells[c]? = some cell ∧
      cell.OnCourse (Runs h r) (a.budgets c) a.courses o)

variable {h : Host} {n m w w' w'' : Nat} {Ψ Ψ' : Courses} {a b d : Account} {o : Course}

/-! ## Moving -/

namespace Moves

theorem refl (n : Nat) (a : Account) : Moves n a a where
  keeps := .refl _
  size := Nat.le_refl _
  fresh _ _ _ hn hc := nomatch hn.symm.trans hc
  frame _ _ _ := ⟨rfl, rfl⟩

theorem trans (hm : Moves n a b) (hm' : Moves n b d) : Moves n a d where
  keeps := hm.keeps.trans hm'.keeps
  size := Nat.le_trans hm.size hm'.size
  fresh c r o hn hc := by
    rcases hb : b.courses c with _ | x
    · have hnew := hm'.fresh c r o hb hc
      exact ⟨hnew.1, Nat.le_trans hm.size hnew.2⟩
    · cases (hm'.keeps c x hb).symm.trans hc
      exact hm.fresh c r o hn hb
  frame c hc hr := by
    have hb : ∀ r o, b.courses c = some (r, o) → n ≤ r := by
      intro r o hb
      rcases ha : a.courses c with _ | x
      · have := (hm.fresh c r o ha hb).2
        omega
      · cases (hm.keeps c x ha).symm.trans hb
        exact hr r o ha
    obtain ⟨hcell, hbudget⟩ := hm'.frame c (Nat.lt_of_lt_of_le hc hm.size) hb
    obtain ⟨hcell', hbudget'⟩ := hm.frame c hc hr
    exact ⟨hcell.trans hcell', hbudget.trans hbudget'⟩

theorem mono (hnm : n ≤ m) (hm : Moves n a b) : Moves m a b where
  keeps := hm.keeps
  size := hm.size
  fresh c r o hn hc := ⟨Nat.lt_of_lt_of_le (hm.fresh c r o hn hc).1 hnm, (hm.fresh c r o hn hc).2⟩
  frame c hc hr := hm.frame c hc fun r o ha => Nat.le_trans hnm (hr r o ha)

end Moves

/-- A step after which the cells are still on their courses, with this much to spend before it and
after it. -/
structure Account.Leads (h : Host) (n : Nat) (a b : Account) (w w' : Nat) : Prop where
  moves : Moves n a b
  onCourse : b.OnCourse h n
  bound : b.bound + w' ≤ a.bound + w

namespace Account.Leads

theorem refl (ha : a.OnCourse h n) (w : Nat) : a.Leads h n a w w := ⟨.refl n a, ha, Nat.le_refl _⟩

theorem trans (hl : a.Leads h n b w w') (hl' : b.Leads h n d w' w'') : a.Leads h n d w w'' :=
  ⟨hl.moves.trans hl'.moves, hl'.onCourse, Nat.le_trans hl'.bound hl.bound⟩

theorem add (hl : a.Leads h n b w w') (k : Nat) : a.Leads h n b (w + k) (w' + k) :=
  ⟨hl.moves, hl.onCourse, by have := hl.bound; omega⟩

theorem le (hl : a.Leads h n b w w') (hw : w ≤ w'') : a.Leads h n b w'' w' :=
  ⟨hl.moves, hl.onCourse, by have := hl.bound; omega⟩

end Account.Leads

/-! ## Running -/

/-- What is drawn is what comes next on the course. -/
inductive Draw.Comes (h : Host) (n w : Nat) (Ψ : Courses) : Draw → Course → Prop
  | item {v q vs e} : q.Runs h n w Ψ (vs, e) → Draw.Comes h n w Ψ (.item v q) (v :: vs, e)
  | finish : Draw.Comes h n w Ψ .finish ([], none)
  | failed {e} : Draw.Comes h n w Ψ (.failed e) ([], some e)

/-- The producer draws what comes next on the course. -/
def Producer.Proceeds (h : Host) (n w : Nat) (p : Producer) (a : Account) (o : Course) : Prop :=
  ∃ x b w', a.Leads h n b w w' ∧ Draws h p a.session x b.session ∧ x.Comes h n w' b.courses o

theorem Producer.runs_iff {p : Producer} : p.Runs h n w Ψ o ↔
    ∀ a, Ψ.Extends a.courses → a.OnCourse h n → p.Proceeds h n w a o := by
  obtain ⟨vs, e⟩ := o
  rw [Runs]
  cases vs with
  | nil =>
    rw [RunsWhile]
    refine forall_congr' fun a => forall_congr' fun _ => forall_congr' fun _ => ?_
    constructor
    · rintro ⟨b, hm, hb, hw, hd⟩
      refine ⟨_, b, 0, ⟨hm, hb, hw⟩, hd, ?_⟩
      cases e with
      | none => exact .finish
      | some e => exact .failed
    · rintro ⟨x, b, w', ⟨hm, hb, hw⟩, hd, hx⟩
      refine ⟨b, hm, hb, by omega, ?_⟩
      cases hx <;> exact hd
  | cons v vs =>
    rw [RunsWhile]
    refine forall_congr' fun a => forall_congr' fun _ => forall_congr' fun _ => ?_
    constructor
    · rintro ⟨q, b, w', hm, hb, hw, hd, hq⟩
      refine ⟨_, b, w', ⟨hm, hb, hw⟩, hd, .item ?_⟩
      rw [Runs]
      exact hq
    · rintro ⟨x, b, w', ⟨hm, hb, hw⟩, hd, hx⟩
      cases hx with
      | item hq =>
        rw [Runs] at hq
        exact ⟨_, b, w', hm, hb, hw, hd, hq⟩

namespace Producer

variable {p q : Producer}

theorem Runs.proceeds (hp : p.Runs h n w Ψ o) (hΨ : Ψ.Extends a.courses) (ha : a.OnCourse h n) :
    p.Proceeds h n w a o := runs_iff.1 hp a hΨ ha

theorem Runs.extend (hΨ : Ψ.Extends Ψ') (hp : p.Runs h n w Ψ o) : p.Runs h n w Ψ' o :=
  runs_iff.2 fun _ hΨ' ha => hp.proceeds (hΨ.trans hΨ') ha

/-- After some steps the producer goes on as another one does. -/
theorem Proceeds.onward (hq : q.Proceeds h n w' b o) (hl : a.Leads h n b w w')
    (hd : ∀ {x t}, Draws h q b.session x t → Draws h p a.session x t) : p.Proceeds h n w a o := by
  obtain ⟨x, d, w'', hl', hq, hx⟩ := hq
  exact ⟨x, d, w'', hl.trans hl', hd hq, hx⟩

theorem Runs.le (hw : w ≤ w') (hp : p.Runs h n w Ψ o) : p.Runs h n w' Ψ o := by
  refine runs_iff.2 fun a hΨ ha => ?_
  obtain ⟨x, b, k, hl, hd, hx⟩ := hp.proceeds hΨ ha
  exact ⟨x, b, k, hl.le hw, hd, hx⟩

/-- In every session the producer goes on at once as another one does. -/
theorem Runs.as (hq : q.Runs h n w Ψ o) (hd : ∀ {s x t}, Draws h q s x t → Draws h p s x t) :
    p.Runs h n w Ψ o :=
  runs_iff.2 fun _ hΨ ha => (hq.proceeds hΨ ha).onward (.refl ha w) hd

end Producer

theorem Cell.OnCourse.extend {cell : Cell} {r : Nat} (hΨ : Ψ.Extends Ψ')
    (hc : cell.OnCourse (Runs h r) w Ψ o) : cell.OnCourse (Runs h r) w Ψ' o := by
  obtain ⟨vs, ho, hrest⟩ := hc
  refine ⟨vs, ho, hrest.imp_left ?_⟩
  rintro ⟨p, hp, he, hr⟩
  exact ⟨p, hp, he, hr.extend hΨ⟩

namespace Account.OnCourse

theorem lt_size (ha : a.OnCourse h n) {c r : Nat} (hc : a.courses c = some (r, o)) :
    c < a.session.cells.size := (ha c r o hc).1

theorem anti (hnm : n ≤ m) (ha : a.OnCourse h m) : a.OnCourse h n :=
  fun c r o hc => ⟨ha.lt_size hc, fun hr => (ha c r o hc).2 (Nat.lt_of_lt_of_le hr hnm)⟩

/-- Cells of higher ranks stay on their courses when the step leaves them alone. -/
theorem after (ha : a.OnCourse h m) (hm : Moves n a b) (hb : b.OnCourse h n) : b.OnCourse h m := by
  intro c r o hc
  refine ⟨hb.lt_size hc, fun hr => ?_⟩
  by_cases hrn : r < n
  · exact (hb c r o hc).2 hrn
  rcases hold : a.courses c with _ | x
  · exact absurd (hm.fresh c r o hold hc).1 hrn
  · cases (hm.keeps c x hold).symm.trans hc
    obtain ⟨cell, hcell, ho⟩ := (ha c r o hold).2 hr
    have hsame := hm.frame c (ha.lt_size hold) fun r' o' hc' => by
      cases hold.symm.trans hc'
      omega
    refine ⟨cell, hsame.1.trans hcell, ?_⟩
    rw [hsame.2]
    exact ho.extend hm.keeps

end Account.OnCourse

/-- A producer that runs among cells of low ranks runs among others as well. -/
theorem Producer.Runs.mono {p : Producer} (hnm : n ≤ m) (hp : p.Runs h n w Ψ o) :
    p.Runs h m w Ψ o := by
  obtain ⟨vs, e⟩ := o
  induction vs generalizing p w Ψ with
  | nil =>
    refine runs_iff.2 fun a hΨ ha => ?_
    obtain ⟨x, b, w', hl, hd, hx⟩ := hp.proceeds hΨ (ha.anti hnm)
    refine ⟨x, b, w', ⟨hl.moves.mono hnm, ha.after hl.moves hl.onCourse, hl.bound⟩, hd, ?_⟩
    cases hx with
    | finish => exact .finish
    | failed => exact .failed
  | cons v vs ih =>
    refine runs_iff.2 fun a hΨ ha => ?_
    obtain ⟨x, b, w', hl, hd, hx⟩ := hp.proceeds hΨ (ha.anti hnm)
    refine ⟨x, b, w', ⟨hl.moves.mono hnm, ha.after hl.moves hl.onCourse, hl.bound⟩, hd, ?_⟩
    cases hx with
    | item hq => exact .item (ih hq)

end XPath
