import XPath.Proofs.Atomic.KeyIdentity
import XPath.Proofs.Lazy.DeepReflexivity

/-!
# Look-up in maps

The constructor of maps accepts entries in every order or in none. Whether a map has a key depends on
no order either, and what it holds under a key does not unless two entries have the key: that takes
an integer or a decimal that is rounded beside a float or a double (`Entries.get?_perm`), for example
two integers that are rounded to the same float (`Entries.get?_rounded`).
-/

namespace XPath

/-- Where no two items qualify, the same one is found in every order. -/
theorem find?_of_perm {α : Type} {p : α → Bool} {xs ys : List α} (h : xs.Perm ys)
    (hone : xs.Pairwise fun x y => ¬(p x ∧ p y)) : ys.find? p = xs.find? p := by
  have hfilter : (xs.filter p).Perm (ys.filter p) := h.filter p
  rw [← List.head?_filter, ← List.head?_filter]
  rcases hxs : xs.filter p with _ | ⟨x, _ | ⟨y, rest⟩⟩
  · rw [hxs] at hfilter
    rw [hfilter.nil_eq]
  · rw [hxs] at hfilter
    rw [hfilter.singleton_eq]
  · exfalso
    have hqualifies : ∀ z ∈ x :: y :: rest, p z := fun z hz => (List.mem_filter.1 (hxs ▸ hz)).2
    have hpair := hone.filter p
    rw [hxs] at hpair
    refine (List.pairwise_cons.1 hpair).1 y List.mem_cons_self ⟨hqualifies x List.mem_cons_self, ?_⟩
    exact hqualifies y (.tail x List.mem_cons_self)

theorem DistinctKeys.perm {keys keys' : List Atomic} (hk : DistinctKeys keys)
    (hp : keys.Perm keys') : DistinctKeys keys' :=
  hp.pairwise hk fun h => by rwa [Atomic.sameKey_comm]

namespace Entries

variable {entries entries' : Entries} {key : Atomic}

theorem contains_eq_any (entries : Entries) (key : Atomic) :
    entries.contains key = entries.any fun e => e.1.sameKey key := by
  rw [contains, get?, Option.isSome_map, List.isSome_find?]

/-- A key that is not rounded beside the keys of a map, nor they beside it, is that of one entry at
most. -/
theorem pairwise_not_sameKey (hk : DistinctKeys (entries.map (·.1))) (hkey : key.InSpace)
    (hunmixed : ∀ e ∈ entries, e.1.InSpace ∧ e.1.Unmixed key) :
    entries.Pairwise fun e e' => ¬(e.1.sameKey key ∧ e'.1.sameKey key) := by
  rw [DistinctKeys, List.pairwise_map] at hk
  refine hk.imp_of_mem fun {e e'} he he' hne h => ?_
  obtain ⟨hspace, hmixed⟩ := hunmixed e he
  obtain ⟨hspace', hmixed'⟩ := hunmixed e' he'
  exact hne (Atomic.sameKey_trans hspace hspace' hkey hmixed hmixed' h.1 h.2)

/-- Entries that are accepted are accepted in every order. All orders have the same keys, and hold the
same value under every key beside which no number is rounded. -/
theorem get?_perm (entries entries' : Entries) (hm : ∃ m, Value.mapOf entries = .ok m)
    (hp : entries.Perm entries') :
    (∃ m, Value.mapOf entries' = .ok m) ∧
      ∀ key : Atomic, entries'.contains key = entries.contains key ∧
        (key.InSpace → (∀ e ∈ entries, e.1.InSpace ∧ e.1.Unmixed key) →
          entries'.get? key = entries.get? key) := by
  have hk := mapOf_eq_ok.1 hm
  refine ⟨mapOf_eq_ok.2 (hk.perm (hp.map _)), fun key => ⟨?_, fun hkey hunmixed => ?_⟩⟩
  · rw [contains_eq_any, contains_eq_any]
    exact hp.symm.any_eq
  · rw [get?, get?]
    exact congrArg _ (find?_of_perm hp (pairwise_not_sameKey hk hkey hunmixed))

/-- The integer one among the keys is found as a decimal, from either end. -/
theorem get?_perm_decimal :
    let one : Atomic × Shared := (.integer 1, .listed [.string "a"])
    let x : Atomic × Shared := (.string "x", .listed [.string "b"])
    let key : Atomic := .decimal ⟨false, 10, 1, by decide, by decide⟩
    get? [x, one] key = get? [one, x] key ∧ get? [one, x] key = some (.listed [.string "a"]) := by
  intro one x key
  have hswap : [one, x].Perm [x, one] := List.Perm.swap x one []
  refine ⟨((get?_perm [one, x] [x, one] ⟨_, rfl⟩ hswap).2 key).2 trivial ?_, rfl⟩
  rw [List.forall_mem_cons, List.forall_mem_singleton]
  exact ⟨⟨⟨by decide, trivial⟩, fun _ _ => by decide⟩, trivial, nofun⟩

/-- Two integers beside a float are rounded to the same one, so that the first entry is found. -/
theorem get?_rounded :
    let low : Atomic × Shared := (.integer 16777216, .listed [.string "a"])
    let high : Atomic × Shared := (.integer 16777217, .listed [.string "b"])
    let key : Atomic := .float (.ofInt 16777216)
    (∃ m, Value.mapOf [low, high] = .ok m) ∧
      get? [low, high] key = some (.listed [.string "a"]) ∧
      get? [high, low] key = some (.listed [.string "b"]) :=
  ⟨⟨_, rfl⟩, rfl, rfl⟩

end Entries

end XPath
