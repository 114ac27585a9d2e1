import Mathlib.Algebra.GroupWithZero.Nat
import Mathlib.Algebra.Ring.Int.Defs
import XPath.Error

/-!
# Numbers of 64 bits

The whole numbers of the model have no bounds. A computation is written once more as a `Checked` one
where its numbers are to have 64 bits: a step that leaves them has no outcome at all, which is apart from
an error.
-/

namespace XPath

/-- An outcome of a computation with numbers of 64 bits, if it has one. -/
abbrev Checked (α : Type) : Type := ExceptT Error Option α

namespace Checked

/-- A size of 64 bits. -/
def size? (i : Int) : Option Nat := if 0 ≤ i ∧ i ≤ 18446744073709551615 then some i.toNat else none

/-- A signed number of 64 bits. -/
def signed? (i : Int) : Option Int :=
  if -9223372036854775808 ≤ i ∧ i ≤ 9223372036854775807 then some i else none

/-- There is no outcome. -/
def fault {α : Type} : Checked α := ExceptT.mk none

/-- A size that may not overflow. -/
def size (i : Int) : Checked Nat := match size? i with
  | some n => pure n
  | none => fault

/-- A size between two bounds, or else an error. -/
def within (low high : Nat) (e : Error) (i : Int) : Checked Nat :=
  match (size? i).filter fun n => low ≤ n ∧ n ≤ high with
  | some n => pure n
  | none => throw e

variable {low high : Nat} {e : Error} {i : Int}

theorem size?_of_nonneg (hi : 0 ≤ i ∧ i < 2 ^ 64) : size? i = some i.toNat := if_pos (by omega)

theorem size_of_nonneg (hi : 0 ≤ i ∧ i < 2 ^ 64) : size i = pure i.toNat := by
  rw [size, size?_of_nonneg hi]

theorem signed?_eq_some {j : Int} : signed? i = some j ↔ (-2 ^ 63 ≤ i ∧ i < 2 ^ 63) ∧ i = j := by
  rw [signed?]
  split
  case isTrue hi => exact ⟨fun h => ⟨by omega, Option.some.inj h⟩, fun h => congrArg some h.2⟩
  case isFalse hi => exact ⟨nofun, fun h => by omega⟩

theorem signed?_eq_none : signed? i = none ↔ ¬(-2 ^ 63 ≤ i ∧ i < 2 ^ 63) := by
  rw [signed?]
  split
  case isTrue hi => exact ⟨nofun, fun h => by omega⟩
  case isFalse hi => exact ⟨fun _ => by omega, fun _ => rfl⟩

theorem within_of_mem (hi : low ≤ i ∧ i ≤ high) (hhigh : high < 2 ^ 64) :
    within low high e i = pure i.toNat := by
  have hbounds : low ≤ i.toNat ∧ i.toNat ≤ high := by omega
  rw [within, size?_of_nonneg (by omega), Option.filter_some, if_pos (decide_eq_true hbounds)]

theorem within_of_not_mem (hi : ¬(low ≤ i ∧ i ≤ high)) : within low high e i = throw e := by
  have hnone : (size? i).filter (fun n => low ≤ n ∧ n ≤ high) = none := by
    rw [Option.filter_eq_none_iff]
    intro n hn
    rw [size?] at hn
    split at hn
    · obtain rfl := Option.some.inj hn
      rw [decide_eq_true_eq]
      omega
    · cases hn
  rw [within, hnone]

end Checked

end XPath
