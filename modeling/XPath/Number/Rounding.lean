/-!
# Rounding quotients

Natural quotients rounded to a neighbour. A result of either rule is within half of the exact
quotient; the rules differ only at a tie.
-/

namespace XPath.Number

/-- What happens to a quotient that lies halfway between two integers. -/
inductive Tie where
  | toEven
  | up
  deriving Repr, DecidableEq

/-- The quotient of `n` by `d`, rounded to the nearest integer. -/
def roundDiv (tie : Tie) (n d : Nat) : Nat :=
  let q := n / d
  let r := n % d
  if 2 * r < d then q
  else if d < 2 * r then q + 1
  else match tie with
    | .toEven => if q % 2 = 0 then q else q + 1
    | .up => q + 1

theorem roundDiv_bounds (tie : Tie) (n : Nat) {d : Nat} (h : 0 < d) :
    2 * n ≤ 2 * (roundDiv tie n d * d) + d ∧ 2 * (roundDiv tie n d * d) ≤ 2 * n + d := by
  have hr : n % d < d := Nat.mod_lt _ h
  have hs : n / d * d + n % d = n := by
    rw [Nat.mul_comm]; exact Nat.div_add_mod n d
  have hq : (n / d + 1) * d = n / d * d + d := Nat.succ_mul _ _
  simp only [roundDiv]
  split
  · omega
  · split
    · omega
    · cases tie
      · simp only
        split <;> omega
      · simp only; omega

theorem roundDiv_of_dvd (tie : Tie) {n d : Nat} (h : 0 < d) (hd : d ∣ n) :
    roundDiv tie n d = n / d := by
  simp [roundDiv, Nat.mod_eq_zero_of_dvd hd, h]

end XPath.Number
