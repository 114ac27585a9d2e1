import XPath.Library.Arrays
import XPath.Proofs.Number.Checked

/-!
# Positions of 64 bits

The positional functions of arrays once more, with every step of their arithmetic on signed numbers and
sizes of 64 bits. A computation that overflows, and an index that is out of range where nothing asks
whether it is, have no outcome. For arrays that can exist there always is one, that of the functions on
whole numbers (`Members.sound`).
-/

namespace XPath

namespace Members.Bounded

open XPath.Checked

/-! ## The functions -/

def index (position : Int) (n : Nat) : Checked Nat := do
  let p ← within 1 n (outOfBounds position n) position
  size (p - 1)

def get (members : List Shared) (position : Int) : Checked Shared := do
  let i ← index position members.length
  match members[i]? with
  | some m => return m
  | none => throw (outOfBounds position members.length)

def put (members : List Shared) (position : Int) (member : Shared) : Checked (List Shared) := do
  let i ← index position members.length
  if i < members.length then return members.set i member else fault

def insertBefore (members : List Shared) (position : Int) (member : Shared) : Checked (List Shared) := do
  let bound ← size (members.length + 1)
  let p ← within 1 bound (outOfBounds position members.length) position
  let i ← size (p - 1)
  if i ≤ members.length then return members.take i ++ member :: members.drop i else fault

/-- Indexes are only compared with those of the members. -/
def remove (members : List Shared) (positions : List Int) : Checked (List Shared) := do
  let indexes ← positions.mapM fun p => index p members.length
  return (members.zipIdx.filter fun (_, i) => !indexes.contains i).map (·.1)

def subarray (members : List Shared) (start length : Int) : Checked (List Shared) := do
  let bound ← size (members.length + 1)
  let first ← within 1 bound (outOfBounds start members.length) start
  match size? length with
  | none => throw (negativeLength length)
  | some count =>
    let stop ← within 0 bound (tooLong start length members.length) (first + count)
    let low ← size (first - 1)
    let high ← size (stop - 1)
    if low ≤ high ∧ high ≤ members.length then return (members.drop low).take (high - low) else fault

/-- An overflow on the way to the length is an error of the position. -/
def subarrayFrom (members : List Shared) (start : Int) : Checked (List Shared) :=
  let n := (signed? members.length).getD 9223372036854775807
  match (signed? (n - start)).bind fun rest => signed? (rest + 1) with
  | some length => subarray members start (max length 0)
  | none => throw (outOfBounds start members.length)

/-! ## Their outcomes -/

variable {members : List Shared} {m : Shared} {p k : Int} {ps : List Int} {n : Nat}

theorem index_run (hn : n < 2 ^ 63) : (index p n).run = some (Members.index p n) := by
  rw [index, Members.index]
  by_cases hp : 1 ≤ p ∧ p ≤ n
  · rw [within_of_mem (by omega) (by omega), pure_bind, size_of_nonneg (by omega), if_pos hp]
    have hindex : ((p.toNat : Int) - 1).toNat = (p - 1).toNat := by omega
    rw [hindex]
    rfl
  · rw [within_of_not_mem hp, if_neg hp]
    rfl

theorem lt_of_index {i : Nat} (hi : Members.index p n = .ok i) : i < n := by
  rw [Members.index] at hi
  split at hi
  · obtain rfl := Except.ok.inj hi
    omega
  · cases hi

theorem get_run (hn : members.length < 2 ^ 63) : (get members p).run = some (Members.get members p) := by
  rw [get, Members.get, ExceptT.run_bind, index_run hn]
  cases Members.index p members.length with
  | error e => rfl
  | ok i =>
    change (match members[i]? with | some m => _ | none => _ : Checked Shared).run =
      some (match members[i]? with | some m => _ | none => _)
    cases members[i]? <;> rfl

theorem put_run (hn : members.length < 2 ^ 63) :
    (put members p m).run = some (Members.put members p m) := by
  rw [put, Members.put, ExceptT.run_bind, index_run hn]
  cases hi : Members.index p members.length with
  | error e => rfl
  | ok i =>
    change (if i < members.length then _ else fault : Checked (List Shared)).run = _
    rw [if_pos (lt_of_index hi)]
    rfl

theorem insertBefore_run (hn : members.length < 2 ^ 63) :
    (insertBefore members p m).run = some (Members.insertBefore members p m) := by
  rw [insertBefore, Members.insertBefore, size_of_nonneg (by omega), pure_bind]
  by_cases hp : 1 ≤ p ∧ p ≤ members.length + 1
  · rw [within_of_mem (by omega) (by omega), pure_bind, size_of_nonneg (by omega), pure_bind,
      if_pos (by omega), if_pos hp]
    have hindex : ((p.toNat : Int) - 1).toNat = (p - 1).toNat := by omega
    rw [hindex]
    rfl
  · rw [within_of_not_mem (by omega), if_neg hp]
    rfl

theorem remove_run (hn : members.length < 2 ^ 63) :
    (remove members ps).run = some (Members.remove members ps) := by
  have hindexes : (ps.mapM fun p => index p members.length).run =
      some (ps.mapM fun p => Members.index p members.length) := by
    induction ps with
    | nil => rfl
    | cons p ps ih =>
      rw [List.mapM_cons, List.mapM_cons, ExceptT.run_bind, index_run hn]
      cases Members.index p members.length with
      | error e => rfl
      | ok i =>
        change (ps.mapM (fun p => index p members.length) >>= fun is => pure (i :: is)).run = _
        rw [ExceptT.run_bind, ih]
        cases ps.mapM fun p => Members.index p members.length <;> rfl
  rw [remove, Members.remove, ExceptT.run_bind, hindexes]
  cases ps.mapM fun p => Members.index p members.length <;> rfl

theorem subarray_run (hn : members.length < 2 ^ 63) (hk : k < 2 ^ 63) :
    (subarray members p k).run = some (Members.subarray members p k) := by
  rw [subarray, Members.subarray, size_of_nonneg (by omega), pure_bind]
  by_cases hp : 1 ≤ p ∧ p ≤ members.length + 1
  · rw [within_of_mem (by omega) (by omega), pure_bind, if_neg fun h => h hp]
    by_cases hk0 : k < 0
    · have hnone : size? k = none := if_neg (by omega)
      rw [hnone, if_pos hk0]
      rfl
    · rw [size?_of_nonneg (by omega), if_neg hk0]
      dsimp only
      by_cases hend : p + k ≤ members.length + 1
      · rw [within_of_mem (by omega) (by omega), pure_bind, size_of_nonneg (by omega), pure_bind,
          size_of_nonneg (by omega), pure_bind, if_pos (by omega), if_pos hend]
        have hlow : ((p.toNat : Int) - 1).toNat = (p - 1).toNat := by omega
        have hcount : ((((p.toNat : Int) + (k.toNat : Int)).toNat : Int) - 1).toNat - (p - 1).toNat =
            k.toNat := by omega
        rw [hlow, hcount]
        rfl
      · rw [within_of_not_mem (by omega), if_neg hend]
        rfl
  · rw [within_of_not_mem (by omega), if_pos hp]
    rfl

theorem subarrayFrom_run (hn : members.length < 2 ^ 63) :
    (subarrayFrom members p).run = some (Members.subarrayFrom members p) := by
  have hbounds : -2 ^ 63 ≤ (members.length : Int) ∧ (members.length : Int) < 2 ^ 63 := by omega
  have hsize : signed? members.length = some (members.length : Int) := signed?_eq_some.2 ⟨hbounds, rfl⟩
  rw [subarrayFrom, Members.subarrayFrom, hsize, Option.getD_some]
  cases hlength : (signed? (members.length - p)).bind fun rest => signed? (rest + 1) with
  | some length =>
    obtain ⟨rest, hrest, hlength⟩ := Option.bind_eq_some_iff.1 hlength
    obtain ⟨-, rfl⟩ := signed?_eq_some.1 hrest
    obtain ⟨hbounds, rfl⟩ := signed?_eq_some.1 hlength
    dsimp only
    rw [subarray_run hn (by omega), Int.max_comm]
  | none =>
    rw [Option.bind_eq_none_iff] at hlength
    have hp : ¬(1 ≤ p ∧ p ≤ members.length + 1) := fun hp => by
      have hrest : signed? (members.length - p) = some (members.length - p) :=
        signed?_eq_some.2 ⟨by omega, rfl⟩
      have hnone := signed?_eq_none.1 (hlength _ hrest)
      omega
    rw [Members.subarray, if_pos hp]
    rfl

end Members.Bounded

/-- With all positions and lengths of 64 bits the functions have the outcomes of the functions on whole
numbers. -/
structure Members.Sound (members : List Shared) : Prop where
  get : ∀ p : Int64, (Bounded.get members p.toInt).run = some (Members.get members p.toInt)
  put : ∀ (p : Int64) (m : Shared),
    (Bounded.put members p.toInt m).run = some (Members.put members p.toInt m)
  insertBefore : ∀ (p : Int64) (m : Shared),
    (Bounded.insertBefore members p.toInt m).run = some (Members.insertBefore members p.toInt m)
  remove : ∀ ps : List Int64,
    (Bounded.remove members (ps.map Int64.toInt)).run = some (Members.remove members (ps.map Int64.toInt))
  subarray : ∀ s l : Int64,
    (Bounded.subarray members s.toInt l.toInt).run = some (Members.subarray members s.toInt l.toInt)
  subarrayFrom : ∀ s : Int64,
    (Bounded.subarrayFrom members s.toInt).run = some (Members.subarrayFrom members s.toInt)

theorem Members.sound {members : List Shared} (hn : members.length < 2 ^ 63) : Sound members where
  get _ := Bounded.get_run hn
  put _ _ := Bounded.put_run hn
  insertBefore _ _ := Bounded.insertBefore_run hn
  remove _ := Bounded.remove_run hn
  subarray _ l := Bounded.subarray_run hn l.toInt_lt
  subarrayFrom _ := Bounded.subarrayFrom_run hn

end XPath
