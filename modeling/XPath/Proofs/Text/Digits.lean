import Mathlib.Data.List.Induction
import Mathlib.Tactic.ByContra
import Mathlib.Tactic.Ring
import XPath.Text.Blank
import XPath.Text.Digits

/-!
# Numbers of digits

How many digits a number has, and how a run of digits is read back when it was filled with zeros on
the left. Digits are neither blanks nor separators.
-/

namespace XPath.Text

variable {s t : List Char} {c : Char} {n width : Nat}

theorem allDigits_iff : allDigits s ↔ ∀ c ∈ s, c.isDigit := List.all_eq_true

theorem allDigits_append : allDigits (s ++ t) ↔ allDigits s ∧ allDigits t := by
  simp [allDigits, List.all_append]

theorem not_mem_of_allDigits (hs : allDigits s) (hc : c.isDigit = false) : c ∉ s := fun hmem => by
  have := allDigits_iff.1 hs c hmem
  simp [hc] at this

theorem toNat_of_isDigit (hc : c.isDigit) : 48 ≤ c.toNat ∧ c.toNat ≤ 57 := by
  simp only [Char.isDigit, Bool.and_eq_true, decide_eq_true_eq, UInt32.le_iff_toNat_le] at hc
  exact hc

theorem not_isBlank_of_isDigit (hc : c.isDigit) : ¬isBlank c := by
  have hrange := toNat_of_isDigit hc
  simp only [isBlank, Bool.or_eq_true, Bool.and_eq_true, decide_eq_true_eq]
  omega

/-! ## Values -/

theorem digitsValue_append (s t : List Char) :
    digitsValue (s ++ t) = digitsValue s * 10 ^ t.length + digitsValue t := by
  induction t using List.reverseRecOn with
  | nil => simp [digitsValue]
  | append_singleton t c ih =>
    rw [← List.append_assoc, digitsValue_concat, digitsValue_concat, ih, List.length_append,
      List.length_singleton, Nat.pow_succ]
    ring

theorem digitsValue_lt (hs : allDigits s) : digitsValue s < 10 ^ s.length := by
  induction s using List.reverseRecOn with
  | nil => simp [digitsValue]
  | append_singleton s c ih =>
    obtain ⟨hs, hc⟩ := allDigits_append.1 hs
    have hdigit := (toNat_of_isDigit (allDigits_iff.1 hc c List.mem_cons_self)).2
    have := ih hs
    rw [digitsValue_concat, List.length_append, List.length_singleton, Nat.pow_succ]
    omega

theorem digitsValue_zeros (k : Nat) (s : List Char) :
    digitsValue (List.replicate k '0' ++ s) = digitsValue s := by
  induction k with
  | zero => rfl
  | succ k ih => rw [List.replicate_succ, List.cons_append, ← ih]; rfl

theorem digitsValue_replicate (k : Nat) : digitsValue (List.replicate k '0') = 0 := by
  rw [← List.append_nil (List.replicate k '0'), digitsValue_zeros]
  rfl

/-- Digits are told apart by their numbers. -/
theorem eq_of_digit {d : Char} (hc : c.isDigit) (hd : d.isDigit) (h : c.toNat - 48 = d.toNat - 48) :
    c = d := by
  have := toNat_of_isDigit hc
  have := toNat_of_isDigit hd
  exact Char.toNat_inj.1 (by omega)

/-- Runs of digits of the same length are told apart by their values. -/
theorem eq_of_digitsValue (hs : allDigits s) (ht : allDigits t) (hl : s.length = t.length)
    (hv : digitsValue s = digitsValue t) : s = t := by
  induction s using List.reverseRecOn generalizing t with
  | nil => exact (List.eq_nil_of_length_eq_zero hl.symm).symm
  | append_singleton s c ih =>
    obtain rfl | ⟨t, d, rfl⟩ := List.eq_nil_or_concat t
    · simp at hl
    · rw [List.concat_eq_append] at ht hl hv ⊢
      obtain ⟨hs, hc⟩ := allDigits_append.1 hs
      obtain ⟨ht, hd⟩ := allDigits_append.1 ht
      have hc := allDigits_iff.1 hc c List.mem_cons_self
      have hd := allDigits_iff.1 hd d List.mem_cons_self
      have := toNat_of_isDigit hc
      have := toNat_of_isDigit hd
      rw [digitsValue_concat, digitsValue_concat] at hv
      rw [ih hs ht (by simpa using hl) (by omega), eq_of_digit hc hd (by omega)]

theorem digitsValue_eq_zero_iff (hs : allDigits s) : digitsValue s = 0 ↔ ∀ c ∈ s, c = '0' := by
  have hzeros : allDigits (List.replicate s.length '0') := allDigits_iff.2 fun c hc => by
    rw [(List.mem_replicate.1 hc).2]
    rfl
  constructor
  · intro hv
    have hs : s = List.replicate s.length '0' :=
      eq_of_digitsValue hs hzeros (by simp) (by rw [hv, digitsValue_replicate])
    exact (List.eq_replicate_iff.1 hs).2
  · intro hs
    rw [List.eq_replicate_iff.2 ⟨rfl, hs⟩, digitsValue_replicate]

/-! ## Lengths -/

theorem natDigits_ne_nil (n : Nat) : natDigits n ≠ [] := by
  rw [natDigits]
  split <;> simp

theorem length_natDigits_pos (n : Nat) : 0 < (natDigits n).length :=
  List.length_pos_iff.2 (natDigits_ne_nil n)

theorem length_natDigits_le (hn : n < 10 ^ width) (hw : 0 < width) :
    (natDigits n).length ≤ width := by
  induction width generalizing n with
  | zero => omega
  | succ width ih =>
    rw [natDigits]
    split
    case isTrue => simp
    case isFalse h =>
      have hwidth : 0 < width := by
        rcases width with _ | width
        · simp at hn
          omega
        · omega
      have := ih (n := n / 10) (by rw [Nat.pow_succ] at hn; omega) hwidth
      simp
      omega

theorem lt_length_natDigits (hn : 10 ^ width ≤ n) : width < (natDigits n).length := by
  by_contra hle
  have hlt := digitsValue_lt (allDigits_natDigits n)
  rw [digitsValue_natDigits] at hlt
  have : 10 ^ (natDigits n).length ≤ 10 ^ width := Nat.pow_le_pow_right (by decide) (by omega)
  omega

/-- Only zero is written with a zero in front. -/
theorem head_natDigits (hn : 0 < n) : (natDigits n).head? ≠ some '0' := by
  induction n using Nat.strongRecOn with
  | _ n ih =>
    rw [natDigits]
    split
    case isTrue h =>
      simp only [List.head?_cons, ne_eq, Option.some.injEq]
      intro hc
      have := toNat_digitChar n
      rw [hc] at this
      have hzero : ('0' : Char).toNat = 48 := rfl
      omega
    case isFalse h =>
      obtain ⟨c, rest, hcons⟩ := List.exists_cons_of_ne_nil (natDigits_ne_nil (n / 10))
      have := ih (n / 10) (by omega) (by omega)
      rw [hcons] at this ⊢
      exact this

/-! ## Padding -/

theorem allDigits_padded (width n : Nat) : allDigits (padded width n) := by
  refine allDigits_append.2 ⟨?_, allDigits_natDigits n⟩
  refine allDigits_iff.2 fun c hc => ?_
  rw [(List.mem_replicate.1 hc).2]
  rfl

theorem digitsValue_padded (width n : Nat) : digitsValue (padded width n) = n := by
  rw [padded, digitsValue_zeros, digitsValue_natDigits]

theorem length_padded (width n : Nat) :
    (padded width n).length = max width (natDigits n).length := by
  simp [padded]
  omega

theorem length_padded_of_lt (hn : n < 10 ^ width) (hw : 0 < width) :
    (padded width n).length = width := by
  have := length_natDigits_le hn hw
  rw [length_padded]
  omega

theorem padded_of_le (hn : 10 ^ width ≤ n) : padded width n = natDigits n := by
  have := lt_length_natDigits hn
  rw [padded, Nat.sub_eq_zero_of_le (by omega)]
  rfl

/-- What is read as a number of that many digits is the number, written with that many digits. -/
theorem eq_padded_of_readDigits? (hs : readDigits? width s = some n) (hw : 0 < width) :
    n < 10 ^ width ∧ s = padded width n := by
  obtain ⟨⟨hlength, hdigits⟩, hvalue⟩ := Option.ite_none_right_eq_some.1 hs
  obtain rfl := Option.some.inj hvalue
  have hlt := digitsValue_lt hdigits
  rw [hlength] at hlt
  refine ⟨hlt, eq_of_digitsValue hdigits (allDigits_padded ..) ?_ (digitsValue_padded ..).symm⟩
  rw [hlength, length_padded_of_lt hlt hw]

/-- A number of no more than the given digits is read back. -/
theorem readDigits?_padded (hn : n < 10 ^ width) (hw : 0 < width) :
    readDigits? width (padded width n) = some n := by
  rw [readDigits?, if_pos ⟨length_padded_of_lt hn hw, allDigits_padded width n⟩, digitsValue_padded]

end XPath.Text
