/-!
# Blank characters and pieces of text

Texts are cut as lists of characters. A character is blank when it has the Unicode property
White_Space; the pieces between blanks are the words of a text, and a text is collapsed when its
words are joined by single spaces. `joinWith_splitAt` says that cutting at a separator loses
nothing.
-/

namespace XPath.Text

/-- The characters with the Unicode property White_Space. -/
def isBlank (c : Char) : Bool :=
  let n := c.toNat
  (9 ≤ n && n ≤ 13) || n = 0x20 || n = 0x85 || n = 0xA0 || n = 0x1680 ||
    (0x2000 ≤ n && n ≤ 0x200A) || n = 0x2028 || n = 0x2029 || n = 0x202F || n = 0x205F || n = 0x3000

/-- Drops the blanks at both ends. -/
def trim (s : List Char) : List Char :=
  ((s.dropWhile isBlank).reverse.dropWhile isBlank).reverse

/-- Cuts at every character that satisfies `p`; there is always at least one piece. -/
def splitWhere (p : Char → Bool) : List Char → List (List Char)
  | [] => [[]]
  | c :: rest =>
    if p c then [] :: splitWhere p rest
    else match splitWhere p rest with
      | [] => [[c]]
      | piece :: pieces => (c :: piece) :: pieces

theorem splitWhere_ne_nil (p : Char → Bool) (s : List Char) : splitWhere p s ≠ [] := by
  cases s with
  | nil => simp [splitWhere]
  | cons c rest =>
    simp only [splitWhere]
    split
    · simp
    · split <;> simp

/-- Cuts at every occurrence of a separator. -/
def splitAt (separator : Char) : List Char → List (List Char) := splitWhere (· == separator)

/-- Joins pieces with a separator between neighbours. -/
def joinWith (separator : Char) : List (List Char) → List Char
  | [] => []
  | [piece] => piece
  | piece :: pieces => piece ++ separator :: joinWith separator pieces

theorem joinWith_splitAt (separator : Char) (s : List Char) :
    joinWith separator (splitAt separator s) = s := by
  induction s with
  | nil => rfl
  | cons c rest ih =>
    simp only [splitAt] at ih ⊢
    simp only [splitWhere]
    split
    · rename_i hc
      cases h : splitWhere (· == separator) rest with
      | nil => exact absurd h (splitWhere_ne_nil _ _)
      | cons piece pieces =>
        rw [h] at ih
        have hc : c = separator := by simpa using hc
        simp [joinWith, ih, hc]
    · cases h : splitWhere (· == separator) rest with
      | nil => exact absurd h (splitWhere_ne_nil _ _)
      | cons piece pieces =>
        rw [h] at ih
        cases pieces with
        | nil => simpa [joinWith] using ih
        | cons next others => simpa [joinWith] using ih

/-- The part before the first occurrence of a separator and the part after it. -/
def cutAt (separator : Char) : List Char → Option (List Char × List Char)
  | [] => none
  | c :: rest =>
    if c = separator then some ([], rest)
    else (cutAt separator rest).map fun (before, after) => (c :: before, after)

theorem cutAt_eq_some {separator : Char} {s before after : List Char}
    (h : cutAt separator s = some (before, after)) :
    s = before ++ separator :: after ∧ separator ∉ before := by
  induction s generalizing before with
  | nil => simp [cutAt] at h
  | cons c rest ih =>
    simp only [cutAt] at h
    split at h
    · rename_i hc
      simp only [Option.some.injEq, Prod.mk.injEq] at h
      simp [← h.1, h.2, hc]
    · rename_i hc
      obtain ⟨⟨b, a⟩, hcut, he⟩ := Option.map_eq_some_iff.1 h
      simp only [Prod.mk.injEq] at he
      obtain ⟨hrest, hnot⟩ := ih (he.2 ▸ hcut)
      simp [← he.1, hrest, hnot, Ne.symm hc]

/-- The words of a text: its nonempty pieces between blanks. -/
def words (s : List Char) : List (List Char) := (splitWhere isBlank s).filter (!·.isEmpty)

/-- The words of a text, joined by single spaces. -/
def collapse (s : List Char) : List Char := joinWith ' ' (words s)

/-- Removes a first character, if it is the given one. -/
def dropSign (sign : Char) : List Char → Bool × List Char
  | [] => (false, [])
  | c :: rest => if c = sign then (true, rest) else (false, c :: rest)

/-- Drops blanks at both ends of a string. -/
def trimString (s : String) : List Char := trim s.toList

end XPath.Text
