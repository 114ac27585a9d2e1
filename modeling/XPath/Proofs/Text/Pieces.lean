import Mathlib.Data.List.DropRight
import XPath.Text.Blank

/-!
# Pieces of a text

Cutting undoes joining: a piece that is free of the separator is what is cut off before the
separator. Trimming leaves a text alone that has no blanks.
-/

namespace XPath.Text

variable {s t before after : List Char} {c separator sign : Char}

/-! ## Blanks -/

theorem trim_of_not_blank (hs : ∀ c ∈ s, ¬isBlank c) : trim s = s := by
  have keep : ∀ t : List Char, (∀ c ∈ t, ¬isBlank c) → t.dropWhile isBlank = t := by
    intro t ht
    cases t with
    | nil => rfl
    | cons c t => exact List.dropWhile_cons_of_neg (ht c List.mem_cons_self)
  have hreverse : ∀ c ∈ s.reverse, ¬isBlank c := fun c hc => hs c (List.mem_reverse.1 hc)
  rw [trim, keep s hs, keep s.reverse hreverse, List.reverse_reverse]

/-- A trimmed text has no blank at either end. -/
theorem trim_trim (s : List Char) : trim (trim s) = trim s := by
  have hleft : (trim s).dropWhile isBlank = trim s := by
    rcases htrim : trim s with _ | ⟨c, rest⟩
    · rfl
    · -- What is cut at the right leaves the first character of what was cut at the left.
      have hprefix : trim s <+: s.dropWhile isBlank := List.rdropWhile_prefix isBlank _
      obtain ⟨after, hafter⟩ := htrim ▸ hprefix
      have hc : ¬isBlank c := by
        have hne : s.dropWhile isBlank ≠ [] := by simp [← hafter]
        have := List.head_dropWhile_not isBlank hne
        simpa [← hafter] using this
      exact List.dropWhile_cons_of_neg hc
  have hright := List.rdropWhile_idempotent isBlank (s.dropWhile isBlank)
  rw [trim, hleft]
  exact hright

/-! ## Cutting -/

theorem cutAt_eq_none_iff : cutAt separator s = none ↔ separator ∉ s := by
  induction s with
  | nil => simp [cutAt]
  | cons c s ih =>
    rw [cutAt]
    split
    case isTrue h => simp [h]
    case isFalse h => simp [ih, Ne.symm h]

theorem cutAt_append (hb : separator ∉ before) :
    cutAt separator (before ++ separator :: after) = some (before, after) := by
  induction before with
  | nil => simp [cutAt]
  | cons c before ih =>
    obtain ⟨hc, hbefore⟩ := List.ne_and_not_mem_of_not_mem_cons hb
    rw [List.cons_append, cutAt, if_neg (Ne.symm hc), ih hbefore]
    rfl

theorem splitWhere_of_forall {p : Char → Bool} (hs : ∀ c ∈ s, ¬p c) : splitWhere p s = [s] := by
  induction s with
  | nil => rfl
  | cons c s ih =>
    obtain ⟨hc, hs⟩ := List.forall_mem_cons.1 hs
    rw [splitWhere, if_neg hc, ih hs]

theorem splitWhere_append {p : Char → Bool} (hb : ∀ c ∈ before, ¬p c) (hc : p c) :
    splitWhere p (before ++ c :: after) = before :: splitWhere p after := by
  induction before with
  | nil => rw [List.nil_append, splitWhere, if_pos hc]
  | cons d before ih =>
    obtain ⟨hd, hb⟩ := List.forall_mem_cons.1 hb
    rw [List.cons_append, splitWhere, if_neg hd, ih hb]

/-- Nothing is left to cut in a piece. -/
theorem forall_not_of_mem_splitWhere {p : Char → Bool} {piece : List Char}
    (hp : piece ∈ splitWhere p s) : ∀ c ∈ piece, ¬p c := by
  induction s generalizing piece with
  | nil =>
    obtain rfl := List.mem_singleton.1 hp
    exact fun c hc => nomatch hc
  | cons d s ih =>
    rw [splitWhere] at hp
    split at hp
    case isTrue =>
      rcases List.mem_cons.1 hp with rfl | hp
      · exact fun c hc => nomatch hc
      · exact ih hp
    case isFalse hd =>
      cases hs : splitWhere p s with
      | nil => exact absurd hs (splitWhere_ne_nil _ _)
      | cons first pieces =>
        rw [hs] at ih hp
        rcases List.mem_cons.1 hp with rfl | hp
        · exact List.forall_mem_cons.2 ⟨hd, ih List.mem_cons_self⟩
        · exact ih (List.mem_cons_of_mem _ hp)

theorem splitAt_of_not_mem (hs : separator ∉ s) : splitAt separator s = [s] :=
  splitWhere_of_forall fun _ hc heq => hs (beq_iff_eq.1 heq ▸ hc)

theorem splitAt_append (hb : separator ∉ before) :
    splitAt separator (before ++ separator :: after) = before :: splitAt separator after :=
  splitWhere_append (fun _ hc heq => hb (beq_iff_eq.1 heq ▸ hc)) (beq_self_eq_true _)

theorem mem_joinWith {pieces : List (List Char)} (hc : c ∈ joinWith separator pieces) :
    c = separator ∨ ∃ piece ∈ pieces, c ∈ piece := by
  induction pieces with
  | nil => cases hc
  | cons piece pieces ih =>
    cases pieces with
    | nil => exact .inr ⟨piece, List.mem_cons_self, hc⟩
    | cons next pieces =>
      rcases List.mem_append.1 hc with hc | hc
      · exact .inr ⟨piece, List.mem_cons_self, hc⟩
      · rcases List.mem_cons.1 hc with rfl | hc
        · exact .inl rfl
        · exact (ih hc).imp_right fun ⟨p, hp, hc⟩ => ⟨p, List.mem_cons_of_mem _ hp, hc⟩

/-- A character of a text is a separator or lies in a piece. -/
theorem mem_splitAt (separator : Char) (hc : c ∈ s) :
    c = separator ∨ ∃ piece ∈ splitAt separator s, c ∈ piece :=
  mem_joinWith (by rwa [joinWith_splitAt])

theorem dropSign_self (sign : Char) (s : List Char) : dropSign sign (sign :: s) = (true, s) :=
  if_pos rfl

theorem dropSign_of_head (hs : s.head? ≠ some sign) : dropSign sign s = (false, s) := by
  cases s with
  | nil => rfl
  | cons c s => exact if_neg fun hc => hs (congrArg some hc)

end XPath.Text
