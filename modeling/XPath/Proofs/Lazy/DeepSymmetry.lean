import Mathlib.Data.Finite.Defs
import Mathlib.Data.Fintype.EquivFin
import XPath.Library.Functions
import XPath.Proofs.Lazy.DeepEquality
import XPath.Proofs.Lazy.Settling

/-!
# Symmetry of deep equality

Two maps of one size are equal when every key of the first one is found in the second one, under a
key identity that is not transitive: a single can be the same key as two integers that are different
keys. Where no key of one map is the same as two keys of the other, the keys of equal maps pair up,
and so deep equality is symmetric (`Content.equal_comm`).
-/

namespace XPath

namespace Content

/-- No key of the one list is the same as two keys of the other. -/
def Apart (keys keys' : List Atomic) : Prop :=
  ∀ k ∈ keys, keys'.Pairwise fun a b => ¬(a.sameKey k ∧ b.sameKey k)

instance (keys keys' : List Atomic) : Decidable (Apart keys keys') :=
  inferInstanceAs (Decidable (∀ k ∈ keys, keys'.Pairwise _))

/-- The comparison of two contents can come to the maps with these keys. -/
inductive Meets : Content → Content → List Atomic → List Atomic → Prop
  | here {xs ys} :
      xs.length = ys.length → Meets (.map xs) (.map ys) (xs.map (·.1)) (ys.map (·.1))
  | entry {xs ys k l vs ws x y keys keys'} :
      (k, vs) ∈ xs → (l, ws) ∈ ys → l.sameKey k → (x, y) ∈ vs.zip ws → Meets x y keys keys' →
      Meets (.map xs) (.map ys) keys keys'
  | member {xs ys vs ws x y keys keys'} :
      (vs, ws) ∈ xs.zip ys → (x, y) ∈ vs.zip ws → Meets x y keys keys' →
      Meets (.array xs) (.array ys) keys keys'

/-- Wherever the comparison comes to two maps, the keys of either are apart from those of the
other. -/
def Clear (x y : Content) : Prop :=
  ∀ keys keys', Meets x y keys keys' → Apart keys keys' ∧ Apart keys' keys

variable {f : Forest}

theorem itemsEqual_comm {xs ys : List Content}
    (he : ∀ x y, (x, y) ∈ xs.zip ys → x.equal f y = y.equal f x) :
    itemsEqual f xs ys = itemsEqual f ys xs := by
  induction xs generalizing ys with
  | nil => cases ys <;> simp only [itemsEqual]
  | cons x xs ih =>
    cases ys with
    | nil => simp only [itemsEqual]
    | cons y ys =>
      rw [itemsEqual, itemsEqual, he x y List.mem_cons_self,
        ih fun x y hxy => he x y (List.mem_cons_of_mem _ hxy)]

theorem membersEqual_comm {xs ys : List (List Content)}
    (he : ∀ vs ws, (vs, ws) ∈ xs.zip ys → itemsEqual f vs ws = itemsEqual f ws vs) :
    membersEqual f xs ys = membersEqual f ys xs := by
  induction xs generalizing ys with
  | nil => cases ys <;> simp only [membersEqual]
  | cons x xs ih =>
    cases ys with
    | nil => simp only [membersEqual]
    | cons y ys =>
      rw [membersEqual, membersEqual, he x y List.mem_cons_self,
        ih fun x y hxy => he x y (List.mem_cons_of_mem _ hxy)]

/-! ## Entries -/

theorem entriesEqual_iff {xs ys : List (Atomic × List Content)} :
    entriesEqual f xs ys ↔
      ∀ x ∈ xs, ∃ zs, lookup ys x.1 = some zs ∧ itemsEqual f x.2 zs := by
  induction xs with
  | nil => simp [entriesEqual]
  | cons x xs ih =>
    obtain ⟨k, vs⟩ := x
    rw [entriesEqual, Bool.and_eq_true, ih, List.forall_mem_cons]
    refine and_congr_left fun _ => ?_
    cases lookup ys k <;> simp

theorem exists_of_lookup {xs : List (Atomic × List Content)} {k : Atomic} {zs : List Content}
    (hz : lookup xs k = some zs) : ∃ l, (l, zs) ∈ xs ∧ l.sameKey k := by
  obtain ⟨⟨l, _⟩, hf, rfl⟩ := Option.map_eq_some_iff.1 hz
  have hk := List.find?_some hf
  exact ⟨l, List.mem_of_find?_eq_some hf, hk⟩

/-- A key that is the same as one key alone is found there. -/
theorem lookup_of_apart {xs : List (Atomic × List Content)} {k : Atomic} {i : Nat}
    (hi : i < xs.length) (hk : xs[i].1.sameKey k)
    (ha : (xs.map (·.1)).Pairwise fun a b => ¬(a.sameKey k ∧ b.sameKey k)) :
    lookup xs k = some xs[i].2 := by
  induction xs generalizing i with
  | nil => simp at hi
  | cons x xs ih =>
    rw [List.map_cons, List.pairwise_cons] at ha
    rw [lookup, List.find?_cons]
    cases i with
    | zero => rw [List.getElem_cons_zero] at hk; simp [hk]
    | succ i =>
      have hi : i < xs.length := by simpa using hi
      rw [List.getElem_cons_succ] at hk
      have : x.1.sameKey k = false := by
        have := ha.1 xs[i].1 (List.mem_map_of_mem (List.getElem_mem hi))
        simpa [hk] using this
      simp only [this]
      exact ih hi hk ha.2

/-- Where all keys of the first of two maps are found in the second, which is no larger, and none is
found twice, all keys of the second are found in the first. -/
theorem entriesEqual_swap {xs ys : List (Atomic × List Content)} (hl : xs.length = ys.length)
    (ha : Apart (ys.map (·.1)) (xs.map (·.1)))
    (hv : ∀ x ∈ xs, ∀ y ∈ ys, y.1.sameKey x.1 → itemsEqual f x.2 y.2 = itemsEqual f y.2 x.2)
    (he : entriesEqual f xs ys) : entriesEqual f ys xs := by
  have hfound : ∀ i : Fin xs.length, ∃ j : Fin ys.length,
      ys[j].1.sameKey xs[i].1 ∧ itemsEqual f xs[i].2 ys[j].2 := by
    intro i
    obtain ⟨zs, hz, hi⟩ := entriesEqual_iff.1 he _ (List.getElem_mem i.2)
    obtain ⟨l, hmem, hl⟩ := exists_of_lookup hz
    obtain ⟨j, hj, hjl⟩ := List.mem_iff_getElem.1 hmem
    refine ⟨⟨j, hj⟩, ?_⟩
    simp only [Fin.getElem_fin, hjl]
    exact ⟨hl, hi⟩
  choose r hkey hitems using hfound
  have apart : ∀ j : Fin ys.length,
      (xs.map (·.1)).Pairwise fun a b => ¬(a.sameKey ys[j].1 ∧ b.sameKey ys[j].1) := fun j =>
    ha _ (List.mem_map_of_mem (List.getElem_mem j.2))
  have hsame : ∀ i : Fin xs.length, xs[i].1.sameKey ys[r i].1 := fun i => by
    rw [Atomic.sameKey_comm]
    exact hkey i
  have hne : ∀ {i i' : Fin xs.length}, i < i' → r i ≠ r i' := fun {i i'} hlt hr => by
    have := List.pairwise_iff_getElem.1 (apart (r i)) i i' (by simp) (by simp) hlt
    simp only [List.getElem_map] at this
    refine this ⟨hsame i, ?_⟩
    rw [hr]
    exact hsame i'
  have hinj : Function.Injective r := by
    intro i i' hr
    rcases lt_trichotomy i i' with hlt | heq | hlt
    · exact absurd hr (hne hlt)
    · exact heq
    · exact absurd hr.symm (hne hlt)
  have hsurj : Function.Surjective r :=
    (Finite.injective_iff_surjective_of_equiv (finCongr hl)).1 hinj
  refine entriesEqual_iff.2 fun y hy => ?_
  obtain ⟨j, hj, rfl⟩ := List.mem_iff_getElem.1 hy
  obtain ⟨i, hi⟩ := hsurj ⟨j, hj⟩
  have hk := hsame i
  have hit := hitems i
  have hvi := hv _ (List.getElem_mem i.2) _ (List.getElem_mem (r i).2) (hkey i)
  simp only [hi, Fin.getElem_fin] at hk hit hvi
  exact ⟨_, lookup_of_apart i.2 hk (apart ⟨j, hj⟩), hvi ▸ hit⟩

theorem entriesEqual_comm {xs ys : List (Atomic × List Content)}
    (ha : xs.length = ys.length →
      Apart (xs.map (·.1)) (ys.map (·.1)) ∧ Apart (ys.map (·.1)) (xs.map (·.1)))
    (hv : ∀ x ∈ xs, ∀ y ∈ ys, y.1.sameKey x.1 → itemsEqual f x.2 y.2 = itemsEqual f y.2 x.2) :
    (xs.length = ys.length && entriesEqual f xs ys) =
      (ys.length = xs.length && entriesEqual f ys xs) := by
  by_cases hl : xs.length = ys.length
  · obtain ⟨hxy, hyx⟩ := ha hl
    rw [decide_eq_true hl, decide_eq_true hl.symm, Bool.true_and, Bool.true_and, Bool.eq_iff_iff]
    refine ⟨entriesEqual_swap hl hyx hv, entriesEqual_swap hl.symm hxy fun y hy x hx hk => ?_⟩
    rw [Atomic.sameKey_comm] at hk
    exact (hv x hx y hy hk).symm
  · rw [decide_eq_false hl, decide_eq_false (Ne.symm hl), Bool.false_and, Bool.false_and]

/-- Contents whose comparison comes to no ambiguous keys are equal in both directions or in none. -/
theorem equal_comm {x y : Content} (hc : x.Clear y) : x.equal f y = y.equal f x := by
  induction hn : sizeOf x using Nat.strongRecOn generalizing x y with
  | ind n ih =>
    subst hn
    cases x with
    | atomic a =>
      cases y <;> simp only [equal]
      exact Atomic.deepEqual_comm ..
    | node a =>
      cases y <;> simp only [equal]
      exact f.deepEqual_comm ..
    | array xs =>
      cases y with
      | array ys =>
        rw [equal, equal]
        refine membersEqual_comm fun vs ws hvw => itemsEqual_comm fun v w hv => ?_
        have hvs := List.sizeOf_lt_of_mem (List.of_mem_zip hvw).1
        have hv' := List.sizeOf_lt_of_mem (List.of_mem_zip hv).1
        refine ih _ ?_ (fun ks ls hm => hc ks ls (.member hvw hv hm)) rfl
        simp
        omega
      | atomic | node | map => simp only [equal]
    | map xs =>
      cases y with
      | map ys =>
        rw [equal, equal]
        refine entriesEqual_comm (fun hl => hc _ _ (.here hl)) fun x hx y hy hk =>
          itemsEqual_comm fun v w hv => ?_
        have hxs := List.sizeOf_lt_of_mem hx
        have hv' := List.sizeOf_lt_of_mem (List.of_mem_zip hv).1
        refine ih _ ?_ (fun ks ls hm => hc ks ls (.entry hx hy hk hv hm)) rfl
        obtain ⟨k, vs⟩ := x
        simp at hxs hv' ⊢
        omega
      | atomic | node | array => simp only [equal]

end Content

/-! ## Verdicts -/

/-- Driven to the end, the producer answers with the boolean. -/
def Producer.Answers (h : Host) (p : Producer) (s : Session) (b : Bool) : Prop :=
  ∃ fuel u, p.materialize h fuel [] s = some (.ok [.boolean b], u)

open Producer

variable {h : Host} {s t : Session}

theorem Producer.Draws.answers {p : Producer} {b : Bool}
    (hd : Draws h p s.calm (.item (.boolean b) .done) t) : p.Answers h s b := by
  obtain ⟨fuel, u, -, hm⟩ := (Yields.item hd (.finish .done)).materialize [] rfl
  exact ⟨fuel, u, hm⟩

namespace Content

/-- The comparison of two values answers whether their contents are equal. -/
theorem items_answers (hh : h.answer = (Host.ofForest f).answer) {x y : Content} {a b : Value}
    (hx : x.Of h a s.calm) (hy : y.Of h b s.calm) :
    (Producer.call (.equal .live [.items a b])).Answers h s (x.equal f y) := by
  obtain ⟨t, -, hd⟩ := (Goal.AllSay.cons (.items hx hy) .nil).decides hh
  rw [Bool.and_true] at hd
  exact hd.answers

/-- The comparison of two sequences answers whether their contents are equal item by item. -/
theorem sequences_answer (hh : h.answer = (Host.ofForest f).answer) {xs ys : List Content}
    {p q : Producer} (hp : OfSequence h xs p s.calm) (hq : OfSequence h ys q s.calm) :
    (equalSequences .live p q).Answers h s (itemsEqual f xs ys) := by
  have hp := hp s.calm .refl
  have hq := hq (s.calm.allocate p).2 (.allocate .refl)
  obtain ⟨t, -, hd⟩ :=
    (Goal.AllSay.cons (.members (hp.later (.allocate .refl)) hq) .nil).decides hh
  rw [Bool.and_true] at hd
  exact Draws.answers (.share (.share hd))

end Content

/-- Deep equality is symmetric, for items and for sequences and however often the host suspends,
wherever it comes to no maps of which a key of one is the same as two keys of the other. -/
theorem deepEqual_symm (hh : h.answer = (Host.ofForest f).answer) (s : Session) :
    (∀ (x y : Content) (a b : Value), x.Of h a s.calm → y.Of h b s.calm → x.Clear y →
      ∃ r, (Producer.call (.equal .live [.items a b])).Answers h s r ∧
        (Producer.call (.equal .live [.items b a])).Answers h s r) ∧
    ∀ (xs ys : List Content) (p q : Producer), Content.OfSequence h xs p s.calm →
      Content.OfSequence h ys q s.calm → (∀ x y, (x, y) ∈ xs.zip ys → x.Clear y) →
      ∃ r, (equalSequences .live p q).Answers h s r ∧ (equalSequences .live q p).Answers h s r := by
  constructor
  · intro x y a b hx hy hc
    refine ⟨x.equal f y, Content.items_answers hh hx hy, ?_⟩
    rw [Content.equal_comm hc]
    exact Content.items_answers hh hy hx
  · intro xs ys p q hp hq hc
    refine ⟨Content.itemsEqual f xs ys, Content.sequences_answer hh hp hq, ?_⟩
    rw [Content.itemsEqual_comm fun x y hxy => Content.equal_comm (hc x y hxy)]
    exact Content.sequences_answer hh hq hp

/-- An array of a map with two entries, and the same with the entries swapped, over a host that
suspends on every topic. -/
theorem deepEqual_swapped_entries :
    let f : Forest := [.element ⟨none, "r", none⟩ [] [.text "x"], .text "x"]
    let h := (Host.ofForest f).deferred
    let child : Node := ⟨0, [.child 0], .text, none, 0⟩
    let text : Node := ⟨1, [], .text, none, 0⟩
    let a : Value := .array [.listed [.map [
      (.integer 1, .listed [.node child]), (.string "k", .listed [])]]]
    let b : Value := .array [.listed [.map [
      (.string "k", .listed []), (.integer 1, .listed [.node text])]]]
    h.answer = (Host.ofForest f).answer ∧
      (∃ r, (Producer.call (.equal .live [.items a b])).Answers h .empty r ∧
        (Producer.call (.equal .live [.items b a])).Answers h .empty r) ∧
      ∃ r, (equalSequences .live (.singleton a) (.singleton b)).Answers h .empty r ∧
        (equalSequences .live (.singleton b) (.singleton a)).Answers h .empty r := by
  intro f h child text a b
  let x : Content := .array [[.map [(.integer 1, [.node child]), (.string "k", [])]]]
  let y : Content := .array [[.map [(.string "k", []), (.integer 1, [.node text])]]]
  have nothing : ∀ s, Content.OfShared h [] 0 (.listed []) s := fun s =>
    Content.ofShared_listed .nil
  have one : ∀ (n : Node) s, Content.OfShared h [.node n] 0 (.listed [.node n]) s := fun n s =>
    Content.ofShared_listed (.cons rfl .nil)
  have hx : x.Of h a Session.empty.calm :=
    ⟨_, rfl, Content.ofMembers_iff.2 (.cons (Content.ofShared_listed (.cons
      ⟨_, rfl, Content.ofEntries_iff.2 (.cons ⟨rfl, one child _⟩ (.cons ⟨rfl, nothing _⟩ .nil))⟩
      .nil)) .nil)⟩
  have hy : y.Of h b Session.empty.calm :=
    ⟨_, rfl, Content.ofMembers_iff.2 (.cons (Content.ofShared_listed (.cons
      ⟨_, rfl, Content.ofEntries_iff.2 (.cons ⟨rfl, nothing _⟩ (.cons ⟨rfl, one text _⟩ .nil))⟩
      .nil)) .nil)⟩
  have hc : x.Clear y := by
    intro keys keys' hm
    dsimp only [x, y] at hm
    cases hm with
    | member hvw hv hm =>
      rcases List.mem_singleton.1 hvw with ⟨⟩
      rcases List.mem_singleton.1 hv with ⟨⟩
      cases hm with
      | here => exact ⟨by decide, by decide⟩
      | entry hx _ _ hv hm =>
        have hv := (List.of_mem_zip hv).1
        rcases List.mem_pair.1 hx with hx | hx
        · obtain ⟨-, rfl⟩ := Prod.mk.inj hx
          obtain rfl := List.mem_singleton.1 hv
          cases hm
        · obtain ⟨-, rfl⟩ := Prod.mk.inj hx
          cases hv
  obtain ⟨items, sequences⟩ :=
    deepEqual_symm (f := f) (h := h) rfl Session.empty
  refine ⟨rfl, items x y a b hx hy hc, sequences [x] [y] _ _ ?_ ?_ ?_⟩
  · exact Content.ofSequence_ofList (.cons hx .nil)
  · exact Content.ofSequence_ofList (.cons hy .nil)
  · intro v w hvw
    rcases List.mem_singleton.1 hvw with ⟨⟩
    exact hc

/-- Two integers that round to one single are different keys, and the single is the same key as either
of them: the comparison depends on which of the two maps is looked up in the other one. -/
theorem deepEqual_rounded_keys :
    let h := Host.ofForest []
    let held : Shared := .listed [.integer 1]
    let integers : Value := .map [(.integer 16777216, held), (.integer 16777217, held)]
    let single : Value := .map [(.float (.ofInt 16777216), held), (.string "a", held)]
    (Producer.call (.equal .live [.items integers single])).Answers h .empty true ∧
      (Producer.call (.equal .live [.items single integers])).Answers h .empty false := by
  intro h held integers single
  have verdict : ∀ (a b : Value) (r : Bool),
      ((Producer.call (.equal .live [.items a b])).materialize h 20 [] .empty).map (·.1) =
        some (.ok [.boolean r]) →
      (Producer.call (.equal .live [.items a b])).Answers h .empty r := by
    intro a b r hm
    obtain ⟨⟨_, u⟩, hm, rfl⟩ := Option.map_eq_some_iff.1 hm
    exact ⟨20, u, hm⟩
  exact ⟨verdict _ _ _ (by rfl), verdict _ _ _ (by rfl)⟩

end XPath
