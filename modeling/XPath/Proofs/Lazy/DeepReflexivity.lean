import XPath.Proofs.Lazy.DeepSymmetry

/-!
# Reflexivity of deep equality

Every value is deep-equal to itself (`deepEqual_refl`). The keys that the constructor of maps accepts
are pairwise different, so a map finds every entry under its own key, and what the entry holds is
compared with itself (`Content.equal_self`). Dates and times are compared by their instants, which
the calendar has to have.
-/

namespace XPath

/-! ## Keys of a map -/

/-- No key is the same as a later one. -/
def DistinctKeys (keys : List Atomic) : Prop := keys.Pairwise fun k l => ¬k.sameKey l

/-- Among different keys a key is found at its own place. -/
theorem DistinctKeys.find?_eq {α : Type} {entries : List (Atomic × α)} {e : Atomic × α}
    (hk : DistinctKeys (entries.map (·.1))) (he : e ∈ entries) :
    entries.find? (fun x => x.1.sameKey e.1) = some e := by
  induction entries with
  | nil => cases he
  | cons x xs ih =>
    rw [List.map_cons, DistinctKeys, List.pairwise_cons] at hk
    rw [List.find?_cons]
    rcases List.mem_cons.1 he with rfl | he
    · rw [e.1.sameKey_self]
    · have hx : x.1.sameKey e.1 = false := by
        simpa using hk.1 e.1 (List.mem_map_of_mem he)
      rw [hx]
      exact ih hk.2 he

namespace Entries

theorem check_eq_ok {seen : List Atomic} {entries : Entries} :
    entries.check seen = .ok () ↔
      (∀ k ∈ entries.map (·.1), ∀ l ∈ seen, ¬l.sameKey k) ∧ DistinctKeys (entries.map (·.1)) := by
  induction entries generalizing seen with
  | nil => simp [check, DistinctKeys]
  | cons e rest ih =>
    rw [check, List.map_cons, List.forall_mem_cons, DistinctKeys, List.pairwise_cons]
    split
    case isTrue h =>
      obtain ⟨l, hl, hk⟩ := List.any_eq_true.1 h
      simp only [reduceCtorEq, false_iff]
      exact fun hn => hn.1.1 l hl hk
    case isFalse h =>
      have hseen : ∀ l ∈ seen, ¬l.sameKey e.1 := fun l hl hk => h (List.any_eq_true.2 ⟨l, hl, hk⟩)
      rw [ih]
      constructor
      · rintro ⟨hbefore, hrest⟩
        refine ⟨⟨hseen, fun k hk l hl => ?_⟩, fun k hk => ?_, hrest⟩
        · exact hbefore k hk l (List.mem_append_left _ hl)
        · exact hbefore k hk e.1 (List.mem_append_right _ List.mem_cons_self)
      · rintro ⟨⟨-, hbefore⟩, hown, hrest⟩
        refine ⟨fun k hk l hl => ?_, hrest⟩
        rcases List.mem_append.1 hl with hl | hl
        · exact hbefore k hk l hl
        · rw [List.mem_singleton.1 hl]
          exact hown k hk

/-- The constructor of maps accepts different keys only. -/
theorem mapOf_eq_ok {entries : Entries} :
    (∃ v, Value.mapOf entries = .ok v) ↔ DistinctKeys (entries.map (·.1)) := by
  have hcheck : entries.check [] = .ok () ↔ _ := check_eq_ok
  simp only [List.not_mem_nil, false_imp_iff, implies_true, true_and] at hcheck
  rw [← hcheck, Value.mapOf]
  cases entries.check [] with
  | ok => exact iff_of_true ⟨_, rfl⟩ rfl
  | error e => exact iff_of_false (fun ⟨_, hv⟩ => nomatch hv) (fun hv => nomatch hv)

end Entries

namespace Content

/-! ## What a content holds -/

/-- One content is the other or lies somewhere in its members or entries. -/
inductive Within (inner : Content) : Content → Prop
  | whole : Within inner inner
  | member {members xs x} : xs ∈ members → x ∈ xs → Within inner x → Within inner (.array members)
  | entry {entries e x} : e ∈ entries → x ∈ e.2 → Within inner x → Within inner (.map entries)

/-- The constructor accepts the keys of all maps; it does not look at what they hold. -/
def Accepted (x : Content) : Prop :=
  ∀ entries, Within (.map entries) x →
    ∃ v, Value.mapOf (entries.map fun e => (e.1, .listed [])) = .ok v

/-- The atomic value is held as an item or as a key. -/
def Holds (x : Content) (a : Atomic) : Prop :=
  Within (.atomic a) x ∨ ∃ entries, Within (.map entries) x ∧ a ∈ entries.map (·.1)

/-- All dates and times have instants in the calendar. -/
def Dated (x : Content) : Prop := ∀ a, x.Holds a → a.hasInstant

variable {f : Forest} {x : Content}

theorem Accepted.distinctKeys {entries : List (Atomic × List Content)}
    (hx : Accepted (.map entries)) : DistinctKeys (entries.map (·.1)) := by
  have hkeys := Entries.mapOf_eq_ok.1 (hx entries .whole)
  rwa [List.map_map] at hkeys

theorem Accepted.member {members : List (List Content)} {xs : List Content}
    (ha : Accepted (.array members)) (hxs : xs ∈ members) (hx : x ∈ xs) : x.Accepted :=
  fun entries hw => ha entries (.member hxs hx hw)

theorem Accepted.entry {entries : List (Atomic × List Content)} {e : Atomic × List Content}
    (ha : Accepted (.map entries)) (he : e ∈ entries) (hx : x ∈ e.2) : x.Accepted :=
  fun entries hw => ha entries (.entry he hx hw)

/-! ## Reflexivity -/

theorem itemsEqual_self {xs : List Content} (hs : ∀ x ∈ xs, x.equal f x) : itemsEqual f xs xs := by
  induction xs with
  | nil => simp only [itemsEqual]
  | cons x xs ih =>
    obtain ⟨hx, hxs⟩ := List.forall_mem_cons.1 hs
    rw [itemsEqual, hx, ih hxs]
    rfl

theorem membersEqual_self {members : List (List Content)}
    (hs : ∀ xs ∈ members, itemsEqual f xs xs) : membersEqual f members members := by
  induction members with
  | nil => simp only [membersEqual]
  | cons xs members ih =>
    obtain ⟨hxs, hmembers⟩ := List.forall_mem_cons.1 hs
    rw [membersEqual, hxs, ih hmembers]
    rfl

/-- A content whose maps the constructor accepts is equal to itself. -/
theorem equal_self (hx : x.Accepted) : x.equal f x := by
  induction hn : sizeOf x using Nat.strongRecOn generalizing x with
  | ind n ih =>
    subst hn
    cases x with
    | atomic a =>
      rw [equal]
      exact a.deepEqual_self
    | node n =>
      rw [equal]
      exact f.deepEqual_self n
    | array members =>
      rw [equal]
      refine membersEqual_self fun xs hxs => itemsEqual_self fun x hmem => ?_
      have hsize := List.sizeOf_lt_of_mem hxs
      have hsize' := List.sizeOf_lt_of_mem hmem
      refine ih _ ?_ (hx.member hxs hmem) rfl
      simp
      omega
    | map entries =>
      rw [equal, decide_eq_true rfl, Bool.true_and]
      refine entriesEqual_iff.2 fun e he => ⟨e.2, ?_, itemsEqual_self fun x hmem => ?_⟩
      · have hfound := hx.distinctKeys.find?_eq he
        exact Option.map_eq_some_iff.2 ⟨e, hfound, rfl⟩
      · have hsize := List.sizeOf_lt_of_mem he
        have hsize' := List.sizeOf_lt_of_mem hmem
        refine ih _ ?_ (hx.entry he hmem) rfl
        obtain ⟨k, xs⟩ := e
        simp at hsize hsize' ⊢
        omega

end Content

variable {h : Host} {f : Forest}

/-- Deep equality is reflexive, however often the host suspends, and every entry of a map finds
itself, where all dates and times have instants: then the comparison of two values that are held ends
as well. -/
theorem deepEqual_refl (hh : h.answer = (Host.ofForest f).answer) (s : Session) :
    (∀ (x : Content) (v : Value), x.Of h v s.calm → x.Accepted → x.Dated →
      (Producer.call (.equal .live [.items v v])).Answers h s true ∧
        ∀ a b, x.Holds a → x.Holds b → a.canCompare b) ∧
    ∀ (entries : Entries) (m : Value), Value.mapOf entries = .ok m →
      (∀ e ∈ entries, e.1.hasInstant) →
      ∀ e ∈ entries, entries.get? e.1 = some e.2 ∧ ∀ e' ∈ entries, e'.1.canCompare e.1 := by
  constructor
  · intro x v hv hx hd
    constructor
    · have hself := Content.items_answers hh hv hv
      rwa [Content.equal_self hx] at hself
    · intro a b ha hb
      exact Atomic.canCompare_of_hasInstant (hd a ha) (hd b hb)
  · intro entries m hm hd e he
    have hkeys := Entries.mapOf_eq_ok.1 ⟨m, hm⟩
    constructor
    · exact Option.map_eq_some_iff.2 ⟨e, hkeys.find?_eq he, rfl⟩
    · intro e' he'
      exact Atomic.canCompare_of_hasInstant (hd e' he') (hd e he)

/-- A map with a member under NaN and an array of a date under a string, over a host that suspends on
every topic. -/
theorem deepEqual_refl_nested :
    let f : Forest := [.element ⟨none, "r", none⟩ [(⟨none, "a", none⟩, "1")] [.text "x"]]
    let h := (Host.ofForest f).deferred
    let root : Node := ⟨0, [], .element, some ⟨none, "r", none⟩, 1⟩
    let date : Atomic := ⟨.date, .temporal ⟨⟨⟨2024, 2, 29⟩, .midnight⟩, some (-3600)⟩, rfl⟩
    let entries : Entries := [(.double .nan, .listed [.node root]),
      (.string "k", .listed [.array [.listed [.atomic date], .listed []]])]
    h.answer = (Host.ofForest f).answer ∧
      (Producer.call (.equal .live [.items (.map entries) (.map entries)])).Answers h .empty true ∧
      ∀ e ∈ entries, entries.get? e.1 = some e.2 ∧ ∀ e' ∈ entries, e'.1.canCompare e.1 := by
  intro f h root date entries
  let x : Content := .map [(.double .nan, [.node root]), (.string "k", [.array [[.atomic date], []]])]
  have hx : x.Of h (.map entries) Session.empty.calm :=
    ⟨_, rfl, Content.ofEntries_iff.2 (.cons ⟨rfl, Content.ofShared_listed (.cons rfl .nil)⟩
      (.cons ⟨rfl, Content.ofShared_listed (.cons ⟨_, rfl, Content.ofMembers_iff.2
        (.cons (Content.ofShared_listed (.cons rfl .nil))
          (.cons (Content.ofShared_listed .nil) .nil))⟩ .nil)⟩ .nil))⟩
  have within : ∀ y, Content.Within y x →
      y = x ∨ y = .node root ∨ y = .array [[.atomic date], []] ∨ y = .atomic date := by
    intro y hy
    dsimp only [x] at hy ⊢
    cases hy with
    | whole => exact .inl rfl
    | entry he hmem hw =>
      rcases List.mem_pair.1 he with rfl | rfl
      · obtain rfl := List.mem_singleton.1 hmem
        cases hw
        exact .inr (.inl rfl)
      · obtain rfl := List.mem_singleton.1 hmem
        cases hw with
        | whole => exact .inr (.inr (.inl rfl))
        | member hxs hmem hw =>
          rcases List.mem_pair.1 hxs with rfl | rfl
          · obtain rfl := List.mem_singleton.1 hmem
            cases hw
            exact .inr (.inr (.inr rfl))
          · cases hmem
  dsimp only [x] at within
  have ha : x.Accepted := by
    intro es hw
    obtain he | he | he | he := within _ hw <;> cases he
    exact ⟨_, rfl⟩
  have hd : x.Dated := by
    rintro a (hw | ⟨es, hw, hkey⟩)
    · obtain he | he | he | he := within _ hw <;> cases he
      rfl
    · obtain he | he | he | he := within _ hw <;> cases he
      rcases List.mem_pair.1 hkey with rfl | rfl <;> rfl
  obtain ⟨equal, found⟩ := deepEqual_refl (f := f) (h := h) rfl Session.empty
  exact ⟨rfl, (equal x _ hx ha hd).1, found entries _ rfl (by decide)⟩

/-- The first moment of the calendar, fourteen hours east of UTC, has no instant: it cannot be compared
with itself. -/
theorem deepEqual_first_moment :
    ∃ a, (Atomic.untyped "-262143-01-01T00:00:00+14:00").cast .dateTime = .ok a ∧
      a.canCompare a = false := by
  refine ⟨⟨.dateTime, .temporal ⟨⟨⟨-262143, 1, 1⟩, .midnight⟩, some 50400⟩, rfl⟩, ?_, ?_⟩
  · rfl
  · rfl

end XPath
