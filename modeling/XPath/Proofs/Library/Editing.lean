import XPath.Proofs.Library.Bounds
import XPath.Proofs.Library.Calls

/-!
# Arrays as lists of members

The positional functions edit the list of members. A position is that of the first member behind a part of
the list (`Members.exists_split`); there the list is taken apart and put together again. Where a position
is out of bounds nothing comes of it but an error (`Members.edits`).
-/

namespace XPath

/-- A result where it is allowed, and an error with this code elsewhere. -/
structure Guarded {α : Type} (reply : Except Error α) (allowed : Prop) (code : ErrorCode)
    (result : α → Prop) : Prop where
  succeeds : allowed → ∃ x, reply = .ok x ∧ result x
  fails : ¬allowed → ∃ e, reply = .error e ∧ e.code = code

namespace Members

variable {members ms ns : List Shared} {new : Shared} {p k : Int} {ps : List Int} {n : Nat}

/-! ## Positions -/

theorem exists_split (hp : 1 ≤ p ∧ p ≤ members.length + 1) :
    ∃ before after, members = before ++ after ∧ p = before.length + 1 := by
  refine ⟨members.take (p - 1).toNat, members.drop (p - 1).toNat, (List.take_append_drop ..).symm, ?_⟩
  rw [List.length_take]
  omega

theorem exists_member (hp : 1 ≤ p ∧ p ≤ members.length) :
    ∃ before m after, members = before ++ m :: after ∧ p = before.length + 1 := by
  have hsplit : 1 ≤ p ∧ p ≤ members.length + 1 := by omega
  obtain ⟨before, after, rfl, hbefore⟩ := exists_split hsplit
  cases after with
  | nil =>
    rw [List.append_nil] at hp
    omega
  | cons m after => exact ⟨before, m, after, rfl, hbefore⟩

theorem index_ok (hp : 1 ≤ p ∧ p ≤ n) : index p n = .ok (p - 1).toNat := if_pos hp

theorem index_error (hp : ¬(1 ≤ p ∧ p ≤ n)) : index p n = .error (outOfBounds p n) := if_neg hp

/-- The index of a member is the number of those before it. -/
theorem index_member (before : List Shared) (m : Shared) (after : List Shared) :
    index (before.length + 1) (before ++ m :: after).length = .ok before.length := by
  rw [index_ok]
  · congr 1
    omega
  · rw [List.length_append, List.length_cons]
    omega

/-! ## Members -/

theorem get_member (before : List Shared) (m : Shared) (after : List Shared) :
    get (before ++ m :: after) (before.length + 1) = .ok m := by
  have hm : (before ++ m :: after)[before.length]? = some m := by simp
  rw [get, index_member]
  simp only [bind, Except.bind, hm]
  rfl

theorem get_error (hp : ¬(1 ≤ p ∧ p ≤ members.length)) :
    get members p = .error (outOfBounds p members.length) := by
  rw [get, index_error hp]
  rfl

theorem put_member (before : List Shared) (m : Shared) (after : List Shared) (new : Shared) :
    put (before ++ m :: after) (before.length + 1) new = .ok (before ++ new :: after) := by
  have hset : (before ++ m :: after).set before.length new = before ++ new :: after := by simp
  rw [put, index_member, ← hset]
  rfl

theorem put_error (hp : ¬(1 ≤ p ∧ p ≤ members.length)) :
    put members p new = .error (outOfBounds p members.length) := by
  rw [put, index_error hp]
  rfl

theorem insertBefore_split (before after : List Shared) (new : Shared) :
    insertBefore (before ++ after) (before.length + 1) new = .ok (before ++ new :: after) := by
  rw [insertBefore, if_pos]
  · simp
  · rw [List.length_append]
    omega

theorem insertBefore_error (hp : ¬(1 ≤ p ∧ p ≤ members.length + 1)) :
    insertBefore members p new = .error (outOfBounds p members.length) := if_neg hp

/-! ## Removal -/

theorem mapM_index (hps : ∀ p ∈ ps, 1 ≤ p ∧ p ≤ n) :
    (ps.mapM fun p => index p n) = .ok (ps.map fun p => (p - 1).toNat) := by
  induction ps with
  | nil => rfl
  | cons p ps ih =>
    obtain ⟨hp, hps⟩ := List.forall_mem_cons.1 hps
    rw [List.mapM_cons, index_ok hp, ih hps]
    rfl

/-- The first position that is out of bounds decides. -/
theorem mapM_index_error (hps : ¬∀ p ∈ ps, 1 ≤ p ∧ p ≤ n) :
    ∃ p, (ps.mapM fun p => index p n) = .error (outOfBounds p n) := by
  induction ps with
  | nil => exact absurd (List.forall_mem_nil _) hps
  | cons p ps ih =>
    rw [List.mapM_cons]
    by_cases hp : 1 ≤ p ∧ p ≤ n
    · obtain ⟨q, hq⟩ := ih fun h => hps (List.forall_mem_cons.2 ⟨hp, h⟩)
      exact ⟨q, by rw [index_ok hp, hq]; rfl⟩
    · exact ⟨p, by rw [index_error hp]; rfl⟩

/-- The members at positions that are not listed. -/
def unlisted (members : List Shared) (ps : List Int) : List Shared :=
  ((members.zipIdx 1).filter fun x => (x.2 : Int) ∉ ps).map (·.1)

theorem remove_ok (hps : ∀ p ∈ ps, 1 ≤ p ∧ p ≤ members.length) :
    remove members ps = .ok (unlisted members ps) := by
  have hlisted : ∀ i : Nat, (ps.map fun p => (p - 1).toNat).contains i = decide ((i : Int) + 1 ∈ ps) := by
    intro i
    rw [List.contains_eq_mem, decide_eq_decide, List.mem_map]
    constructor
    · rintro ⟨p, hp, rfl⟩
      have hp1 := (hps p hp).1
      rwa [show ((p - 1).toNat : Int) + 1 = p by omega]
    · intro hi
      exact ⟨_, hi, by omega⟩
  rw [remove, mapM_index hps, unlisted, List.zipIdx_succ, List.filter_map, List.map_map]
  refine congrArg Except.ok (congrArg (List.map _) (List.filter_congr fun x _ => ?_))
  change (!(ps.map fun p => (p - 1).toNat).contains x.2) = decide (((x.2 + 1 : Nat) : Int) ∉ ps)
  rw [hlisted, decide_not]
  rfl

theorem remove_error (hps : ¬∀ p ∈ ps, 1 ≤ p ∧ p ≤ members.length) :
    ∃ p, remove members ps = .error (outOfBounds p members.length) := by
  obtain ⟨p, hp⟩ := mapM_index_error hps
  exact ⟨p, by rw [remove, hp]; rfl⟩

theorem remove_member (before : List Shared) (m : Shared) (after : List Shared) :
    remove (before ++ m :: after) [(before.length : Int) + 1] = .ok (before ++ after) := by
  have hbound : ∀ p ∈ [(before.length : Int) + 1], 1 ≤ p ∧ p ≤ (before ++ m :: after).length := by
    rw [List.forall_mem_singleton, List.length_append, List.length_cons]
    omega
  have hbefore : ((before.zipIdx 1).filter fun x => (x.2 : Int) ∉ [(before.length : Int) + 1]) =
      before.zipIdx 1 := by
    refine List.filter_eq_self.2 fun x hx => ?_
    have := List.mem_zipIdx hx
    simp
    omega
  have hafter : ((after.zipIdx (1 + before.length + 1)).filter fun x =>
      (x.2 : Int) ∉ [(before.length : Int) + 1]) = after.zipIdx (1 + before.length + 1) := by
    refine List.filter_eq_self.2 fun x hx => ?_
    have := List.mem_zipIdx hx
    simp
    omega
  rw [remove_ok hbound, unlisted, List.zipIdx_append, List.filter_append, hbefore, List.zipIdx_cons,
    List.filter_cons_of_neg (by simp; omega), hafter, List.map_append, List.zipIdx_map_fst,
    List.zipIdx_map_fst]

/-! ## Parts -/

theorem subarray_split (before ms after : List Shared) :
    subarray (before ++ ms ++ after) (before.length + 1) ms.length = .ok ms := by
  have hlength : (before ++ ms ++ after).length = before.length + ms.length + after.length := by
    rw [List.length_append, List.length_append]
  rw [subarray, hlength, if_neg (by omega), if_neg (by omega), if_pos (by omega)]
  simp

theorem subarray_misplaced (hs : ¬(1 ≤ p ∧ p ≤ members.length + 1)) :
    subarray members p k = .error (outOfBounds p members.length) := if_pos hs

theorem subarray_negative (hs : 1 ≤ p ∧ p ≤ members.length + 1) (hk : k < 0) :
    subarray members p k = .error (negativeLength k) := by
  rw [subarray, if_neg (not_not.2 hs), if_pos hk]

theorem subarray_tooLong (hs : 1 ≤ p ∧ p ≤ members.length + 1) (hk : 0 ≤ k)
    (hend : members.length + 1 < p + k) :
    subarray members p k = .error (tooLong p k members.length) := by
  rw [subarray, if_neg (not_not.2 hs), if_neg (by omega), if_neg (by omega)]

theorem exists_part (hs : 1 ≤ p) (hk : 0 ≤ k) (hend : p + k ≤ members.length + 1) :
    ∃ before ms after, members = before ++ ms ++ after ∧ p = before.length + 1 ∧ k = ms.length := by
  have hstop : 1 ≤ p + k ∧ p + k ≤ members.length + 1 := by omega
  obtain ⟨front, after, rfl, hfront⟩ := exists_split hstop
  have hstart : 1 ≤ p ∧ p ≤ front.length + 1 := by omega
  obtain ⟨before, ms, rfl, hbefore⟩ := exists_split hstart
  rw [List.length_append] at hfront
  exact ⟨before, ms, after, rfl, hbefore, by omega⟩

theorem subarrayFrom_eq (hs : 1 ≤ p ∧ p ≤ members.length + 1) :
    subarrayFrom members p = subarray members p (members.length - p + 1) := by
  have hlength : max 0 (members.length - p + 1) = members.length - p + 1 := by omega
  rw [subarrayFrom, hlength]

theorem subarrayFrom_error (hs : ¬(1 ≤ p ∧ p ≤ members.length + 1)) :
    subarrayFrom members p = .error (outOfBounds p members.length) := subarray_misplaced hs

theorem subarrayFrom_split (before after : List Shared) :
    subarrayFrom (before ++ after) (before.length + 1) = .ok after := by
  have hsplit := subarray_split before after []
  rw [List.append_nil] at hsplit
  rw [subarrayFrom_eq (by rw [List.length_append]; omega), ← hsplit]
  congr 1
  rw [List.length_append]
  omega

/-! ## All edits -/

/-- What the positional functions make of the members, and where they do. -/
structure Edits (members : List Shared) : Prop where
  get : ∀ p, Guarded (Members.get members p) (1 ≤ p ∧ p ≤ members.length) .FOAY0001 fun m =>
    ∃ before after, members = before ++ m :: after ∧ p = before.length + 1
  put : ∀ p new, Guarded (Members.put members p new) (1 ≤ p ∧ p ≤ members.length) .FOAY0001 fun ms =>
    ∃ before m after, members = before ++ m :: after ∧ p = before.length + 1 ∧
      ms = before ++ new :: after
  insertBefore : ∀ p new, Guarded (Members.insertBefore members p new)
    (1 ≤ p ∧ p ≤ members.length + 1) .FOAY0001 fun ms =>
      ∃ before after, members = before ++ after ∧ p = before.length + 1 ∧ ms = before ++ new :: after
  remove : ∀ ps, Guarded (Members.remove members ps) (∀ p ∈ ps, 1 ≤ p ∧ p ≤ members.length) .FOAY0001
    fun ms => ms = unlisted members ps
  /-- The start is looked at first, then the sign of the length, and the end last. -/
  subarray : ∀ s l,
    Guarded (Members.subarray members s l)
      (1 ≤ s ∧ s ≤ members.length + 1 ∧ 0 ≤ l ∧ s + l ≤ members.length + 1)
      (if (1 ≤ s ∧ s ≤ members.length + 1) ∧ l < 0 then .FOAY0002 else .FOAY0001) fun ms =>
        ∃ before after, members = before ++ ms ++ after ∧ s = before.length + 1 ∧ l = ms.length
  subarrayFrom : ∀ s, Guarded (Members.subarrayFrom members s) (1 ≤ s ∧ s ≤ members.length + 1) .FOAY0001
    fun ms => Members.subarray members s (members.length - s + 1) = .ok ms
  append : ∀ new, Members.insertBefore members (members.length + 1) new = .ok (members ++ [new])
  remove_insertBefore : ∀ p new ms, Members.insertBefore members p new = .ok ms →
    Members.remove ms [p] = .ok members
  get_put : ∀ p new ms, Members.put members p new = .ok ms → Members.get ms p = .ok new
  join : ∀ k : Int, 0 ≤ k ∧ k ≤ members.length → ∃ ms ns, Members.subarray members 1 k = .ok ms ∧
    Members.subarrayFrom members (k + 1) = .ok ns ∧ ms ++ ns = members

theorem edits (members : List Shared) : Edits members where
  get p := by
    refine ⟨fun hp => ?_, fun hp => ⟨_, get_error hp, rfl⟩⟩
    obtain ⟨before, m, after, rfl, rfl⟩ := exists_member hp
    exact ⟨m, get_member before m after, before, after, rfl, rfl⟩
  put p new := by
    refine ⟨fun hp => ?_, fun hp => ⟨_, put_error hp, rfl⟩⟩
    obtain ⟨before, m, after, rfl, rfl⟩ := exists_member hp
    exact ⟨_, put_member before m after new, before, m, after, rfl, rfl, rfl⟩
  insertBefore p new := by
    refine ⟨fun hp => ?_, fun hp => ⟨_, insertBefore_error hp, rfl⟩⟩
    obtain ⟨before, after, rfl, rfl⟩ := exists_split hp
    exact ⟨_, insertBefore_split before after new, before, after, rfl, rfl, rfl⟩
  remove ps := by
    refine ⟨fun hps => ⟨_, remove_ok hps, rfl⟩, fun hps => ?_⟩
    obtain ⟨p, hp⟩ := remove_error hps
    exact ⟨_, hp, rfl⟩
  subarray s l := by
    refine ⟨fun ⟨hs, _, hl, hend⟩ => ?_, fun hno => ?_⟩
    · obtain ⟨before, ms, after, rfl, rfl, rfl⟩ := exists_part hs hl hend
      exact ⟨ms, subarray_split before ms after, before, after, rfl, rfl, rfl⟩
    · by_cases hs : 1 ≤ s ∧ s ≤ members.length + 1
      · by_cases hl : l < 0
        · rw [if_pos ⟨hs, hl⟩]
          exact ⟨_, subarray_negative hs hl, rfl⟩
        · rw [if_neg fun h => hl h.2]
          exact ⟨_, subarray_tooLong hs (by omega) (by omega), rfl⟩
      · rw [if_neg fun h => hs h.1]
        exact ⟨_, subarray_misplaced hs, rfl⟩
  subarrayFrom s := by
    refine ⟨fun hs => ?_, fun hs => ⟨_, subarrayFrom_error hs, rfl⟩⟩
    rw [← subarrayFrom_eq hs]
    obtain ⟨before, after, rfl, rfl⟩ := exists_split hs
    exact ⟨after, subarrayFrom_split before after, subarrayFrom_split before after⟩
  append new := by
    have hsplit := insertBefore_split members [] new
    rwa [List.append_nil] at hsplit
  remove_insertBefore p new ms hms := by
    by_cases hp : 1 ≤ p ∧ p ≤ members.length + 1
    · obtain ⟨before, after, rfl, rfl⟩ := exists_split hp
      rw [insertBefore_split] at hms
      cases hms
      exact remove_member before new after
    · rw [insertBefore_error hp] at hms
      cases hms
  get_put p new ms hms := by
    by_cases hp : 1 ≤ p ∧ p ≤ members.length
    · obtain ⟨before, m, after, rfl, rfl⟩ := exists_member hp
      rw [put_member] at hms
      cases hms
      exact get_member before new after
    · rw [put_error hp] at hms
      cases hms
  join k hk := by
    have hsplit : 1 ≤ k + 1 ∧ k + 1 ≤ members.length + 1 := by omega
    obtain ⟨before, after, rfl, hbefore⟩ := exists_split hsplit
    obtain rfl : k = before.length := by omega
    exact ⟨before, after, subarray_split [] before after, subarrayFrom_split before after, rfl⟩

/-- In a call with an array and positions of 64 bits, the positional functions edit the list of its
members, which is left as it is, without a number that overflows or an index out of range. -/
theorem calls_edit (h : Host) (c : CallContext) (members : List Shared) (hn : members.length < 2 ^ 63) :
    Calls h c members ∧ Edits members ∧ Sound members := ⟨calls h c members, edits members, sound hn⟩

/-- Of two members the second one is left from position two on, and nothing from position three on; the
least of all positions is out of bounds. -/
theorem calls_edit_two :
    let members : List Shared := [.listed [.integer 7], .listed []]
    let call (i : Int) := Builtin.ComesTo .absent ⟨.empty, .live, .standard⟩ (.arraySubarray false)
      [.singleton (.array members), .singleton (.integer i)] .empty
    members.length < 2 ^ 63 ∧ call 2 (Reply.array [.listed []]) .empty ∧ call 3 (Reply.array []) .empty ∧
      (Bounded.subarrayFrom members Int64.minValue.toInt).run =
        some (.error (outOfBounds Int64.minValue.toInt 2)) := by
  intro members call
  have hn : members.length < 2 ^ 63 := by decide
  obtain ⟨hcalls, -, hsound⟩ := calls_edit .absent ⟨.empty, .live, .standard⟩ members hn
  have harray : (Producer.singleton (.array members)).GivesArray .absent .empty members .empty :=
    .item .emit (.finish .done)
  have hinteger (i : Int) : (Producer.singleton (.integer i)).GivesInteger .absent .empty i .empty :=
    ⟨.integer i, rfl, .item .emit (.finish .done)⟩
  exact ⟨hn, hcalls.subarrayFrom _ _ 2 _ _ _ harray (hinteger 2),
    hcalls.subarrayFrom _ _ 3 _ _ _ harray (hinteger 3), hsound.subarrayFrom Int64.minValue⟩

end Members

end XPath
