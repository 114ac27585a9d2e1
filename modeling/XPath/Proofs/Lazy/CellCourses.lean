import Mathlib.Logic.Function.Basic
import XPath.Proofs.Lazy.Running

/-!
# Cells on their courses

The source of a cell that is on its course is resumed with the budget of the cell, and what it gives is
put back with the rest of the budget (`Account.OnCourse.resume`). So whatever the course has at an index
is found there (`Account.OnCourse.finds`), and a sequence that runs on a course can be put into a new
cell (`Account.OnCourse.allocate`).
-/

namespace XPath

open Producer

variable {h : Host} {n w : Nat} {a b : Account} {o : Course}

/-! ## Budgets -/

theorem sum_update (β : Nat → Nat) {c k : Nat} (hc : c < k) (w : Nat) :
    ((List.range k).map (Function.update β c w)).sum + β c = ((List.range k).map β).sum + w := by
  induction k with
  | zero => omega
  | succ k ih =>
    rw [List.range_succ, List.map_append, List.map_append, List.sum_append, List.sum_append]
    simp only [List.map_cons, List.map_nil, List.sum_cons, List.sum_nil]
    by_cases hck : c = k
    · subst hck
      have hsame : (List.range c).map (Function.update β c w) = (List.range c).map β :=
        List.map_congr_left fun j hj => Function.update_of_ne (Nat.ne_of_lt (List.mem_range.1 hj)) w β
      rw [hsame, Function.update_self]
      omega
    · have hk := ih (by omega)
      rw [Function.update_of_ne (Ne.symm hck)]
      omega

/-- What has been drawn from the source of a cell is put into the cell. -/
def Session.absorb (s : Session) (c : Nat) : Draw → Session
  | .item v q => s.keep c v q
  | .finish => s
  | .failed e => s.spoil c e

namespace Session

variable {s : Session} {c j : Nat} {x : Draw}

theorem pulls_absorb : (s.absorb c x).pulls = s.pulls := by cases x <;> rfl

theorem size_absorb : (s.absorb c x).cells.size = s.cells.size := by
  cases x <;> simp [absorb, cells_keep, cells_spoil]

theorem cells_absorb (hj : j ≠ c) : (s.absorb c x).cells[j]? = s.cells[j]? := by
  cases x <;> simp [absorb, cells_keep, cells_spoil, Array.getElem?_modify, Ne.symm hj]

end Session

namespace Account

/-- The source of a cell is taken out, with what it may spend. -/
def detach (a : Account) (c : Nat) : Account :=
  ⟨a.session.detach c, a.courses, Function.update a.budgets c 0⟩

/-- What has been drawn is put into a cell, with what is left to spend. -/
def absorb (a : Account) (c w : Nat) (x : Draw) : Account :=
  ⟨a.session.absorb c x, a.courses, Function.update a.budgets c w⟩

variable {c j : Nat} {x : Draw}

theorem size_detach : (a.detach c).session.cells.size = a.session.cells.size := by
  simp [detach, Session.cells_detach]

theorem same_detach (hj : j ≠ c) : (a.detach c).session.cells[j]? = a.session.cells[j]? ∧
    (a.detach c).budgets j = a.budgets j :=
  ⟨by simp [detach, Session.cells_detach, Array.getElem?_modify, Ne.symm hj],
    Function.update_of_ne hj ..⟩

theorem same_absorb (hj : j ≠ c) : (a.absorb c w x).session.cells[j]? = a.session.cells[j]? ∧
    (a.absorb c w x).budgets j = a.budgets j :=
  ⟨Session.cells_absorb hj, Function.update_of_ne hj ..⟩

theorem bound_detach (hc : c < a.session.cells.size) :
    (a.detach c).bound + a.budgets c = a.bound := by
  have hsum := sum_update a.budgets hc 0
  unfold bound
  rw [size_detach]
  change a.session.pulls + _ + _ = _
  simp only [detach]
  omega

theorem bound_absorb (hc : c < a.session.cells.size) (h0 : a.budgets c = 0) :
    (a.absorb c w x).bound = a.bound + w := by
  have hsum := sum_update a.budgets hc w
  simp only [bound, absorb, Session.size_absorb, Session.pulls_absorb]
  omega

end Account

/-- A step that changes nothing but a cell of a low rank. -/
theorem Moves.of_cell {c r : Nat} (hcourses : b.courses = a.courses)
    (hc : a.courses c = some (r, o)) (hr : r < n)
    (hsize : b.session.cells.size = a.session.cells.size)
    (hsame : ∀ j ≠ c, b.session.cells[j]? = a.session.cells[j]? ∧ b.budgets j = a.budgets j) :
    Moves n a b where
  keeps := hcourses ▸ .refl _
  size := Nat.le_of_eq hsize.symm
  fresh j r' o' hn hj := by
    rw [hcourses, hn] at hj
    cases hj
  frame j _ hranks := by
    apply hsame
    rintro rfl
    exact absurd (hranks r o hc) (Nat.not_le_of_lt hr)

/-! ## Reading -/

/-- What a look at a shared sequence shows of its course. -/
inductive Account.Shows (h : Host) (n : Nat) (a : Account) (shared : Shared) (i : Nat) (o : Course) :
    Lookup → Prop
  | item {v : Value} : o.1[i]? = some v → Account.Shows h n a shared i o (.item v)
  | finish : o.1[i]? = none → o.2 = none → Account.Shows h n a shared i o .finish
  | failed {e : Error} : o.1[i]? = none → o.2 = some e → Account.Shows h n a shared i o (.failed e)
  | unread {c r : Nat} {items : Array Value} {p : Producer} {vs : List Value} :
      shared = .cell c → a.courses c = some (r, o) → r < n →
      a.session.cells[c]? = some ⟨items, some p, none⟩ → o.1 = items.toList ++ vs → items.size ≤ i →
      p.Runs h r (a.budgets c) a.courses (vs, o.2) → Account.Shows h n a shared i o (.unread c p)

/-- What is found at an index of a sequence with the course. -/
inductive Account.Finds (h : Host) (n : Nat) (a : Account) (shared : Shared) (i : Nat) (o : Course) :
    Prop
  | item {v : Value} {b : Account} :
      o.1[i]? = some v → a.Leads h n b 0 0 → Reads h shared i a.session (some v) b.session →
      Account.Finds h n a shared i o
  | finish {b : Account} :
      o.1[i]? = none → o.2 = none → a.Leads h n b 0 0 → Reads h shared i a.session none b.session →
      Account.Finds h n a shared i o
  | failed {e : Error} {b : Account} :
      o.1[i]? = none → o.2 = some e → a.Leads h n b 0 0 →
      (∀ k, Draws h (.fetch shared i k) a.session (.failed e) b.session) →
      Account.Finds h n a shared i o

namespace Account.OnCourse

variable {c r i : Nat} {cell : Cell} {p : Producer} {items : Array Value} {vs : List Value}
  {shared : Shared} {x : Draw}

/-- A cell that is being computed may be left out of account by those of lower ranks. -/
theorem detach (ha : a.OnCourse h n) (hc : a.courses c = some (r, o)) (hr : r < n) :
    (a.detach c).OnCourse h r := by
  intro j r' o' hj
  refine ⟨Account.size_detach.symm ▸ ha.lt_size hj, fun hr' => ?_⟩
  obtain ⟨cell, hcell, ho⟩ := (ha j r' o' hj).2 (Nat.lt_trans hr' hr)
  have hne : j ≠ c := by
    rintro rfl
    cases hc.symm.trans hj
    exact Nat.lt_irrefl _ hr'
  rw [(Account.same_detach hne).1, (Account.same_detach hne).2]
  exact ⟨cell, hcell, ho⟩

/-- The cell that has been computed is put back. -/
theorem absorb (ha : a.OnCourse h n) (hc : a.courses c = some (r, o)) (hr : r < n)
    (hl : (a.detach c).Leads h r b (a.budgets c) w)
    (hcell : (b.session.absorb c x).cells[c]? = some cell)
    (ho : cell.OnCourse (Runs h r) w b.courses o) :
    a.Leads h n (b.absorb c w x) 0 0 := by
  have hlt := ha.lt_size hc
  have hdetach : Moves n a (a.detach c) :=
    .of_cell rfl hc hr Account.size_detach fun _ => Account.same_detach
  have habsorb : Moves n b (b.absorb c w x) :=
    .of_cell rfl (hl.moves.keeps c _ hc) hr Session.size_absorb fun _ => Account.same_absorb
  have hmoves := (hdetach.trans (hl.moves.mono (Nat.le_of_lt hr))).trans habsorb
  refine ⟨hmoves, fun j r' o' hj => ⟨?_, fun hr' => ?_⟩, ?_⟩
  · exact Nat.lt_of_lt_of_le (hl.onCourse.lt_size hj) habsorb.size
  · by_cases hjc : j = c
    · subst hjc
      cases (hl.moves.keeps _ _ hc).symm.trans hj
      refine ⟨cell, hcell, ?_⟩
      simp only [Account.absorb, Function.update_self]
      exact ho
    rw [(Account.same_absorb hjc).1, (Account.same_absorb hjc).2]
    by_cases hrr : r' < r
    · exact (hl.onCourse j r' o' hj).2 hrr
    · -- A cell of a rank between the two is left alone while the cell is computed.
      rcases hold : a.courses j with _ | y
      · exact absurd (hl.moves.fresh j r' o' hold hj).1 hrr
      · cases (hl.moves.keeps j y hold).symm.trans hj
        obtain ⟨cell', hcell', ho'⟩ := (ha j r' o' hold).2 hr'
        obtain ⟨hsame, hbudget⟩ := hl.moves.frame j
          (Account.size_detach.symm ▸ ha.lt_size hold) fun r'' o'' hj'' => by
            cases hold.symm.trans hj''
            exact Nat.le_of_not_lt hrr
        rw [hsame, hbudget, (Account.same_detach hjc).1, (Account.same_detach hjc).2]
        exact ⟨cell', hcell', ho'.extend hl.moves.keeps⟩
  · have hzero : b.budgets c = 0 := by
      obtain ⟨-, hbudget⟩ := hl.moves.frame c (Account.size_detach.symm ▸ hlt) fun r' o' hc' => by
        cases hc.symm.trans hc'
        exact Nat.le_refl _
      exact hbudget.trans (Function.update_self ..)
    have hltb := Nat.lt_of_lt_of_le hlt (Nat.le_trans hdetach.size hl.moves.size)
    have hspent := Account.bound_absorb (w := w) (x := x) hltb hzero
    have htaken := Account.bound_detach (a := a) hlt
    have hpaid := hl.bound
    omega

theorem shows (ha : a.OnCourse h n) (ho : o.Is n a.courses shared) (i : Nat) :
    a.Shows h n shared i o (a.session.look shared i) := by
  cases ho with
  | @listed vs =>
    rw [Session.look]
    cases hi : vs[i]? with
    | some v => exact .item hi
    | none => exact .finish hi rfl
  | @cell c r o hc hr =>
    obtain ⟨⟨items, source, error⟩, hcell, vs, ho, hrest⟩ := (ha c r o hc).2 hr
    dsimp only at ho hrest
    rw [Session.look, hcell]
    dsimp only
    by_cases hi : i < items.size
    · have hget : o.1[i]? = items[i]? := by
        rw [ho, List.getElem?_append_left (by simpa using hi), Array.getElem?_toList]
      rw [Array.getElem?_eq_getElem hi] at hget ⊢
      exact .item hget
    · rw [Array.getElem?_eq_none (Nat.le_of_not_lt hi)]
      rcases hrest with ⟨p, rfl, rfl, hp⟩ | ⟨rfl, rfl, rfl⟩
      · exact .unread rfl hc hr hcell ho (Nat.le_of_not_lt hi) hp
      · have hnone : o.1[i]? = none := by
          rw [ho, List.append_nil]
          exact List.getElem?_eq_none (by simpa using hi)
        cases he : o.2 with
        | none => exact .finish hnone he
        | some e => exact .failed hnone he

/-- The source of a cell goes on with the course, and the cell with it. -/
theorem resume (ha : a.OnCourse h n) (hc : a.courses c = some (r, o)) (hr : r < n)
    (hcell : a.session.cells[c]? = some ⟨items, some p, none⟩) (ho : o.1 = items.toList ++ vs)
    (hp : p.Runs h r (a.budgets c) a.courses (vs, o.2)) :
    ∃ x, ∃ b : Account, ∃ w, Draws h p (a.session.detach c) x b.session ∧
      x.Comes h r w b.courses (vs, o.2) ∧
      a.Leads h n (b.absorb c w x) 0 0 ∧
      ∀ v q, x = .item v q →
        (b.session.keep c v q).cells[c]? = some ⟨items.push v, some q, none⟩ := by
  obtain ⟨x, b, w, hl, hd, hx⟩ := hp.proceeds (a := a.detach c) (.refl _) (ha.detach hc hr)
  have hidle : b.session.cells[c]? = some ⟨items, none, none⟩ := by
    obtain ⟨hsame, -⟩ := hl.moves.frame c (Account.size_detach.symm ▸ ha.lt_size hc)
      fun r' o' hc' => by
        cases hc.symm.trans hc'
        exact Nat.le_refl _
    rw [hsame]
    simp [Account.detach, Session.cells_detach, Array.getElem?_modify, hcell]
  refine ⟨x, b, w, hd, hx, ?_, ?_⟩
  · generalize hvs : (vs, o.2) = rest at hx
    cases hx with
    | @item v q ws e hq =>
      cases hvs
      have hcell' : (b.session.keep c v q).cells[c]? = some ⟨items.push v, some q, none⟩ := by
        simp [Session.cells_keep, Array.getElem?_modify, hidle]
      exact ha.absorb hc hr hl hcell'
        ⟨ws, by rw [ho, Array.toList_push, List.append_assoc]; rfl, .inl ⟨q, rfl, rfl, hq⟩⟩
    | finish =>
      obtain ⟨hvs, he⟩ := Prod.mk.inj hvs
      exact ha.absorb hc hr hl hidle ⟨[], by rw [ho, hvs], .inr ⟨rfl, rfl, he.symm⟩⟩
    | @failed e =>
      obtain ⟨hvs, he⟩ := Prod.mk.inj hvs
      have hcell' : (b.session.spoil c e).cells[c]? = some ⟨items, none, some e⟩ := by
        simp [Session.cells_spoil, Array.getElem?_modify, hidle]
      exact ha.absorb hc hr hl hcell' ⟨[], by rw [ho, hvs], .inr ⟨rfl, rfl, he.symm⟩⟩
  · rintro v q rfl
    simp [Session.cells_keep, Array.getElem?_modify, hidle]

theorem finds (ha : a.OnCourse h n) (ho : o.Is n a.courses shared) : a.Finds h n shared i o := by
  -- Each item that is drawn from the source of a cell on the way leaves fewer to be drawn.
  suffices ∀ k, (∀ c cell, shared = .cell c → a.session.cells[c]? = some cell →
      o.1.length ≤ cell.items.size + k) → a.Finds h n shared i o from
    this o.1.length fun _ _ _ _ => Nat.le_add_left ..
  intro k hk
  induction k using Nat.strongRecOn generalizing a with
  | ind k ih =>
    have hshows := ha.shows ho i
    generalize hl : a.session.look shared i = found at hshows
    cases hshows with
    | item hv => exact .item hv (.refl ha 0) (.item hl)
    | finish hv he => exact .finish hv he (.refl ha 0) (.finish hl)
    | failed hv he => exact .failed hv he (.refl ha 0) fun _ => .fetch_failed hl
    | @unread c r items p vs hshared hc hr hcell hvs hi hp =>
      subst hshared
      have hnone : vs = [] → o.1[i]? = none := by
        rintro rfl
        rw [hvs, List.append_nil]
        exact List.getElem?_eq_none (by simpa using hi)
      obtain ⟨x, b, w, hd, hx, hleads, hnew⟩ := ha.resume hc hr hcell hvs hp
      generalize hrest : (vs, o.2) = rest at hx
      cases hx with
      | finish =>
        obtain ⟨hvs', he⟩ := Prod.mk.inj hrest
        exact .finish (hnone hvs') he hleads (.unread_finish hl hd)
      | failed =>
        obtain ⟨hvs', he⟩ := Prod.mk.inj hrest
        exact .failed (hnone hvs') he hleads fun _ => .unread_failed hl hd
      | @item v q ws e hq =>
        cases hrest
        have hlen : o.1.length = items.size + (ws.length + 1) := by
          rw [hvs, List.length_append, Array.length_toList, List.length_cons]
        have hk' := hk c _ rfl hcell
        dsimp only at hk'
        have hfinds := ih (k - 1) (by omega) hleads.onCourse
          (ho.mono (Nat.le_refl n) hleads.moves.keeps) fun c' cell hc' hcell' => by
            cases hc'
            cases (hnew v q rfl).symm.trans hcell'
            rw [Array.size_push]
            omega
        cases hfinds with
        | item hv hleads' hread =>
          exact .item hv (hleads.trans hleads') (.unread_item hl hd hread)
        | finish hv he hleads' hread =>
          exact .finish hv he (hleads.trans hleads') (.unread_item hl hd hread)
        | failed hv he hleads' hread =>
          exact .failed hv he (hleads.trans hleads') fun k => .unread_item hl hd (hread k)

end Account.OnCourse

/-! ## New cells -/

/-- A sequence is put into a new cell, with what it may spend. -/
def Account.allocate (a : Account) (p : Producer) (r : Nat) (o : Course) (w : Nat) : Account where
  session := (a.session.allocate p).2
  courses := Function.update a.courses a.session.cells.size (some (r, o))
  budgets := Function.update a.budgets a.session.cells.size w

section

variable {p : Producer} {r : Nat}

theorem Account.budgets_allocate_of_ne {c : Nat} (hc : c ≠ a.session.cells.size) :
    (a.allocate p r o w).budgets c = a.budgets c := Function.update_of_ne hc ..

theorem Account.budgets_allocate_self :
    (a.allocate p r o w).budgets a.session.cells.size = w := Function.update_self ..

theorem Account.bound_allocate : (a.allocate p r o w).bound = a.bound + w := by
  have hsame : (List.range a.session.cells.size).map (a.allocate p r o w).budgets =
      (List.range a.session.cells.size).map a.budgets :=
    List.map_congr_left fun c hc => budgets_allocate_of_ne (Nat.ne_of_lt (List.mem_range.1 hc))
  have hsize : (a.allocate p r o w).session.cells.size = a.session.cells.size + 1 := by
    simp [allocate, Session.cells_allocate]
  have hpulls : (a.allocate p r o w).session.pulls = a.session.pulls := rfl
  simp only [bound, hsize, List.range_succ, List.map_append, List.sum_append, hsame, hpulls,
    List.map_cons, List.map_nil, List.sum_cons, List.sum_nil, budgets_allocate_self]
  omega

/-- A sequence that runs on a course can be put into a new cell. -/
theorem Account.OnCourse.allocate (ha : a.OnCourse h n) (hr : r < n)
    (hp : p.Runs h r w a.courses o) :
    a.Leads h n (a.allocate p r o w) w 0 ∧
      (a.allocate p r o w).courses a.session.cells.size = some (r, o) := by
  have hnone : a.courses a.session.cells.size = none := by
    rcases hc : a.courses a.session.cells.size with _ | ⟨r', o'⟩
    · rfl
    · exact absurd (ha.lt_size hc) (Nat.lt_irrefl _)
  have hnew : (a.allocate p r o w).courses a.session.cells.size = some (r, o) :=
    Function.update_self ..
  have hold : ∀ c ≠ a.session.cells.size, (a.allocate p r o w).courses c = a.courses c :=
    fun c hc => Function.update_of_ne hc ..
  have hcells : ∀ c < a.session.cells.size,
      (a.allocate p r o w).session.cells[c]? = a.session.cells[c]? := fun c hc => by
    simp [Account.allocate, Session.cells_allocate, Array.getElem?_push, Nat.ne_of_lt hc]
  have hsize : (a.allocate p r o w).session.cells.size = a.session.cells.size + 1 := by
    simp [Account.allocate, Session.cells_allocate]
  have hmoves : Moves n a (a.allocate p r o w) := by
    refine ⟨fun c x hx => ?_, fun c r' o' hc hc' => ?_, fun c hc _ => ?_, by omega⟩
    · rw [hold c ?_, hx]
      rintro rfl
      cases hnone.symm.trans hx
    · by_cases heq : c = a.session.cells.size
      · subst heq
        cases hnew.symm.trans hc'
        exact ⟨hr, Nat.le_refl _⟩
      · rw [hold c heq, hc] at hc'
        cases hc'
    · exact ⟨hcells c hc, Account.budgets_allocate_of_ne (Nat.ne_of_lt hc)⟩
  refine ⟨⟨hmoves, fun c r' o' hc => ?_, Nat.le_of_eq Account.bound_allocate⟩, hnew⟩
  by_cases heq : c = a.session.cells.size
  · subst heq
    cases hnew.symm.trans hc
    refine ⟨by omega, fun _ => ⟨⟨#[], some p, none⟩, ?_, o.1, rfl, .inl ⟨p, rfl, rfl, ?_⟩⟩⟩
    · simp [Account.allocate, Session.cells_allocate]
    · rw [Account.budgets_allocate_self]
      exact hp.extend hmoves.keeps
  · rw [hold c heq] at hc
    have hlt := ha.lt_size hc
    refine ⟨by omega, fun hr' => ?_⟩
    obtain ⟨cell, hcell, hoc⟩ := (ha c r' o' hc).2 hr'
    refine ⟨cell, (hcells c hlt).trans hcell, ?_⟩
    rw [Account.budgets_allocate_of_ne heq]
    exact hoc.extend hmoves.keeps

end

end XPath
