/-!
# Runs of decimal digits

Reading and writing of natural numbers as digits. `digitsValue_natDigits` says that reading what was
written gives the number back.
-/

namespace XPath.Text

/-- Whether every character is an ASCII digit; the empty run passes. -/
def allDigits (s : List Char) : Bool := s.all (·.isDigit)

/-- The number that a run of digits stands for, most significant digit first. -/
def digitsValue (s : List Char) : Nat := s.foldl (fun n c => 10 * n + (c.toNat - 48)) 0

theorem digitsValue_concat (s : List Char) (c : Char) :
    digitsValue (s ++ [c]) = 10 * digitsValue s + (c.toNat - 48) := by
  simp [digitsValue, List.foldl_append]

/-- The digit for a number below ten. -/
def digitChar (n : Nat) : Char := Char.ofNat (48 + n % 10)

/-- The decimal digits of a number, without leading zeros; zero has one digit. -/
def natDigits (n : Nat) : List Char :=
  if n < 10 then [digitChar n] else natDigits (n / 10) ++ [digitChar n]
termination_by n
decreasing_by omega

theorem digitChar_cases (n : Nat) :
    ∃ d, d < 10 ∧ n % 10 = d ∧ digitChar n = Char.ofNat (48 + d) :=
  ⟨n % 10, Nat.mod_lt _ (by omega), rfl, rfl⟩

theorem toNat_digitChar (n : Nat) : (digitChar n).toNat = 48 + n % 10 := by
  obtain ⟨d, hd, hn, he⟩ := digitChar_cases n
  rw [he, hn]
  clear he hn
  revert d
  decide

theorem isDigit_digitChar (n : Nat) : (digitChar n).isDigit = true := by
  obtain ⟨d, hd, hn, he⟩ := digitChar_cases n
  rw [he]
  clear he hn
  revert d
  decide

theorem allDigits_natDigits (n : Nat) : allDigits (natDigits n) = true := by
  induction n using Nat.strongRecOn with
  | _ n ih =>
    rw [natDigits]
    split
    · simp [allDigits, isDigit_digitChar]
    · have h := ih (n / 10) (by omega)
      simp_all [allDigits, isDigit_digitChar]

theorem digitsValue_natDigits (n : Nat) : digitsValue (natDigits n) = n := by
  induction n using Nat.strongRecOn with
  | _ n ih =>
    rw [natDigits]
    split
    · simp only [digitsValue, List.foldl_cons, List.foldl_nil, toNat_digitChar]
      omega
    · rw [digitsValue_concat, ih (n / 10) (by omega), toNat_digitChar]
      omega

/-- The number of decimal digits. -/
def digitCount (n : Nat) : Nat := (natDigits n).length

/-- At least `width` digits, filled with zeros on the left. -/
def padded (width n : Nat) : List Char :=
  let digits := natDigits n
  List.replicate (width - digits.length) '0' ++ digits

/-- Reads exactly `width` digits. -/
def readDigits? (width : Nat) (s : List Char) : Option Nat :=
  if s.length = width ∧ allDigits s then some (digitsValue s) else none

/-- The decimal text of an integer. -/
def intText (n : Int) : String :=
  match n with
  | .ofNat m => String.ofList (natDigits m)
  | .negSucc m => String.ofList ('-' :: natDigits (m + 1))

end XPath.Text
