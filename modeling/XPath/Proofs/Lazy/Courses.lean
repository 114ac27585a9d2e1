import XPath.Lazy.Atomize

/-!
# Courses

The course of a sequence is all that it comes to: its items and the error that ends it, if one does.
Courses are put together as the sequences are. What an array comes to when it is flattened depends on
the cells that its members are kept in, and on no others (`Value.Within.leaves_congr`).
-/

namespace XPath

/-- The items of a sequence and the error that ends it, if one does. -/
abbrev Course := List Value × Option Error

namespace Course

/-- Two sequences one after the other; an error of the first one ends both. -/
def andThen : Course → Course → Course
  | (vs, none), (ws, e) => (vs ++ ws, e)
  | (vs, some e), _ => (vs, some e)

def concat : List Course → Course
  | [] => ([], none)
  | o :: os => o.andThen (concat os)

/-- What the items give rise to, one after the other. -/
def flatMap (g : Value → Course) : List Value → Option Error → Course
  | [], e => ([], e)
  | v :: vs, e => (g v).andThen (flatMap g vs e)

/-- One item, or the error of computing it. -/
def ofItem : Except Error Value → Course
  | .ok v => ([v], none)
  | .error e => ([], some e)

/-- What is made of all items, or only the error if they end in one. -/
def bind : Course → (List Value → Course) → Course
  | (vs, none), g => g vs
  | (_, some e), _ => ([], some e)

variable {o o' o'' : Course} {v : Value} {vs : List Value} {e : Option Error} {g g' : Value → Course}

theorem cons_andThen : andThen (v :: vs, e) o = (v :: (andThen (vs, e) o).1, (andThen (vs, e) o).2) := by
  cases e <;> rfl

theorem andThen_assoc : (o.andThen o').andThen o'' = o.andThen (o'.andThen o'') := by
  obtain ⟨vs, _ | e⟩ := o
  · obtain ⟨ws, _ | e⟩ := o'
    · simp [andThen]
    · rfl
  · rfl

theorem flatMap_andThen : flatMap g (o.andThen o').1 (o.andThen o').2 =
    (flatMap g o.1 o.2).andThen (flatMap g o'.1 o'.2) := by
  obtain ⟨vs, e⟩ := o
  induction vs with
  | nil => cases e <;> rfl
  | cons v vs ih => rw [cons_andThen, flatMap, flatMap, ih, andThen_assoc]

theorem flatMap_congr (hg : ∀ v ∈ vs, g v = g' v) : flatMap g vs e = flatMap g' vs e := by
  induction vs with
  | nil => rfl
  | cons v vs ih =>
    rw [flatMap, flatMap, hg v List.mem_cons_self, ih fun w hw => hg w (List.mem_cons_of_mem v hw)]

theorem mem_andThen (hv : v ∈ (o.andThen o').1) : v ∈ o.1 ∨ v ∈ o'.1 := by
  obtain ⟨vs, _ | e⟩ := o
  · exact List.mem_append.1 hv
  · exact .inl hv

theorem mem_flatMap (hv : v ∈ (flatMap g vs e).1) : ∃ w ∈ vs, v ∈ (g w).1 := by
  induction vs with
  | nil => cases hv
  | cons w vs ih =>
    rcases mem_andThen hv with hv | hv
    · exact ⟨w, List.mem_cons_self, hv⟩
    · obtain ⟨w', hw', hv⟩ := ih hv
      exact ⟨w', List.mem_cons_of_mem w hw', hv⟩

theorem mem_ofItem {x : Except Error Value} : v ∈ (ofItem x).1 ↔ x = .ok v := by
  cases x <;> simp [ofItem, eq_comm]

end Course

/-! ## Leaves -/

section

variable (leavesOf : Nat → Course)

mutual

/-- The value itself; for an array the items of its members, arrays among them replaced by their own.
What the members in cells come to is given. -/
def Value.leaves : Value → Course
  | .array members => membersLeaves members
  | .atomic a => ([.atomic a], none)
  | .node n => ([.node n], none)
  | .map entries => ([.map entries], none)
  | .function f => ([.function f], none)

def membersLeaves : List Shared → Course
  | [] => ([], none)
  | m :: ms => m.leaves.andThen (membersLeaves ms)

def Shared.leaves : Shared → Course
  | .listed vs => itemsLeaves vs
  | .cell c => leavesOf c

def itemsLeaves : List Value → Course
  | [] => ([], none)
  | v :: vs => v.leaves.andThen (itemsLeaves vs)

end

theorem Value.leaves_array (members : List Shared) :
    (array members).leaves leavesOf = Course.concat (members.map (Shared.leaves leavesOf)) := by
  rw [leaves]
  induction members with
  | nil => rfl
  | cons m ms ih => rw [membersLeaves, ih, List.map_cons, Course.concat]

theorem Shared.leaves_listed (items : List Value) :
    (listed items).leaves leavesOf = Course.flatMap (Value.leaves leavesOf) items none := by
  rw [leaves]
  induction items with
  | nil => rfl
  | cons v vs ih => rw [itemsLeaves, ih, Course.flatMap]

end

/-- The atomic value of an item that is not an array. -/
def Value.atom (h : Host) (v : Value) : Course :=
  match v.atomized.run h with
  | .ok a => ([.atomic a], none)
  | .error e => ([], some e)

/-- The items as atomic values, those of arrays for the arrays. -/
def Course.atomized (h : Host) (leavesOf : Nat → Course) (o : Course) : Course :=
  let leaves := flatMap (Value.leaves leavesOf) o.1 o.2
  flatMap (Value.atom h) leaves.1 leaves.2

/-! ## Values of few cells -/

mutual

/-- Arrays in the value, however deep, are kept in the first cells or are listed. -/
inductive Value.Within (m : Nat) : Value → Prop
  | atomic {a} : Value.Within m (.atomic a)
  | node {n} : Value.Within m (.node n)
  | map {entries} : Value.Within m (.map entries)
  | function {f} : Value.Within m (.function f)
  | array {members} : (∀ s ∈ members, Shared.Within m s) → Value.Within m (.array members)

inductive Shared.Within (m : Nat) : Shared → Prop
  | listed {items} : (∀ v ∈ items, Value.Within m v) → Shared.Within m (.listed items)
  | cell {c} : c < m → Shared.Within m (.cell c)

end

mutual

theorem Value.Within.mono {m k : Nat} (hmk : m ≤ k) {v : Value} : v.Within m → v.Within k
  | .atomic => .atomic
  | .node => .node
  | .map => .map
  | .function => .function
  | .array hm => .array fun s hs => (hm s hs).mono hmk

theorem Shared.Within.mono {m k : Nat} (hmk : m ≤ k) {s : Shared} : s.Within m → s.Within k
  | .listed hv => .listed fun v hmem => (hv v hmem).mono hmk
  | .cell hc => .cell (Nat.lt_of_lt_of_le hc hmk)

end

section

variable {m : Nat} {l l' : Nat → Course}

mutual

/-- The leaves of a value are known from those of the cells it is made of. -/
theorem Value.Within.leaves_congr (hl : ∀ c < m, l c = l' c) {v : Value} :
    v.Within m → v.leaves l = v.leaves l'
  | .atomic | .node | .map | .function => by simp only [Value.leaves]
  | .array hm => by
    rw [Value.leaves_array, Value.leaves_array,
      List.map_congr_left fun s hs => (hm s hs).leaves_congr hl]

theorem Shared.Within.leaves_congr (hl : ∀ c < m, l c = l' c) {s : Shared} :
    s.Within m → s.leaves l = s.leaves l'
  | .listed hv => by
    rw [Shared.leaves_listed, Shared.leaves_listed,
      Course.flatMap_congr fun v hmem => (hv v hmem).leaves_congr hl]
  | .cell hc => by rw [Shared.leaves, Shared.leaves, hl _ hc]

end

end

theorem Value.within_atom {m : Nat} {h : Host} {v w : Value} (hw : w ∈ (v.atom h).1) :
    w.Within m := by
  unfold atom at hw
  split at hw
  · rw [List.mem_singleton.1 hw]
    exact .atomic
  · cases hw

/-! ## Courses of cells -/

/-- The ranks and courses of some cells. -/
abbrev Courses := Nat → Option (Nat × Course)

namespace Courses

variable {Ψ Ψ' Ψ'' : Courses}

/-- No course changes, but there may be more of them. -/
def Extends (Ψ Ψ' : Courses) : Prop := ∀ c x, Ψ c = some x → Ψ' c = some x

theorem Extends.refl (Ψ : Courses) : Ψ.Extends Ψ := fun _ _ => id

theorem Extends.trans (hΨ : Ψ.Extends Ψ') (hΨ' : Ψ'.Extends Ψ'') : Ψ.Extends Ψ'' :=
  fun c x hx => hΨ' c x (hΨ c x hx)

/-- The first cells have courses of ranks below `n`, each made of values of cells before it, and
`leavesOf` says what these courses come to when they are flattened. -/
def Know (Ψ : Courses) (n m : Nat) (leavesOf : Nat → Course) : Prop :=
  ∀ c < m, ∃ r o, Ψ c = some (r, o) ∧ r < n ∧ (∀ v ∈ o.1, v.Within c) ∧
    leavesOf c = Course.flatMap (Value.leaves leavesOf) o.1 o.2

theorem Know.mono {n n' m : Nat} {l : Nat → Course} (hn : n ≤ n') (hΨ : Ψ.Extends Ψ')
    (hk : Ψ.Know n m l) : Ψ'.Know n' m l := by
  intro c hc
  obtain ⟨r, o, ho, hr, hv, hl⟩ := hk c hc
  exact ⟨r, o, hΨ c _ ho, Nat.lt_of_lt_of_le hr hn, hv, hl⟩

end Courses

/-- The shared sequence has the course, and if it is kept in a cell, then in one of a rank below `n`. -/
inductive Course.Is (n : Nat) (Ψ : Courses) : Course → Shared → Prop
  | cell {c r o} : Ψ c = some (r, o) → r < n → Course.Is n Ψ o (.cell c)
  | listed {vs} : Course.Is n Ψ (vs, none) (.listed vs)

theorem Course.Is.mono {n m : Nat} {Ψ Ψ' : Courses} {o : Course} {s : Shared} (hnm : n ≤ m)
    (hΨ : Ψ.Extends Ψ') (hs : o.Is n Ψ s) : o.Is m Ψ' s := by
  cases hs with
  | cell hc hr => exact .cell (hΨ _ _ hc) (Nat.lt_of_lt_of_le hr hnm)
  | listed => exact .listed

end XPath
