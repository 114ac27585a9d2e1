import Mathlib.Data.List.TakeWhile
import XPath.Name
import XPath.Proofs.Text.Pieces

/-!
# Words and names

Words that are joined by spaces are found again (`words_joinWith`), so that collapsing leaves a
collapsed text alone. No name and no language tag holds a blank.
-/

namespace XPath.Text

variable {s t : List Char} {c separator : Char}

/-! ## Words -/

/-- A word is not empty and holds no blank. -/
def IsWord (w : List Char) : Prop := w ≠ [] ∧ ∀ c ∈ w, ¬isBlank c

theorem isWord_of_mem_words {w : List Char} (hw : w ∈ words s) : IsWord w := by
  obtain ⟨hmem, hne⟩ := List.mem_filter.1 hw
  exact ⟨by simpa using hne, forall_not_of_mem_splitWhere hmem⟩

/-- The words of words that were joined by spaces. -/
theorem words_joinWith {ws : List (List Char)} (hws : ∀ w ∈ ws, IsWord w) :
    words (joinWith ' ' ws) = ws := by
  have keep : ∀ w ps, IsWord w →
      (w :: ps).filter (!List.isEmpty ·) = w :: ps.filter (!List.isEmpty ·) :=
    fun w ps hw => List.filter_cons_of_pos (by simpa using hw.1)
  induction ws with
  | nil => rfl
  | cons w ws ih =>
    obtain ⟨hw, hws⟩ := List.forall_mem_cons.1 hws
    cases ws with
    | nil => rw [joinWith, words, splitWhere_of_forall hw.2, keep w _ hw, List.filter_nil]
    | cons next ws =>
      have := ih hws
      rw [words] at this
      rw [joinWith, words, splitWhere_append hw.2 (by decide), keep w _ hw, this]
      simp

/-- A blank in front adds no word. -/
theorem words_cons (hc : isBlank c) (s : List Char) : words (c :: s) = words s := by
  rw [words, splitWhere, if_pos hc, List.filter_cons_of_neg (by simp), words]

/-- The words of a text after a change of its blanks to other blanks. -/
theorem words_map {f : Char → Char} (hf : ∀ c, isBlank (f c) = isBlank c)
    (hkeep : ∀ c, ¬isBlank c → f c = c) (s : List Char) : words (s.map f) = words s := by
  have hsplit : splitWhere isBlank (s.map f) = splitWhere isBlank s := by
    induction s with
    | nil => rfl
    | cons c s ih =>
      rw [List.map_cons, splitWhere, splitWhere, hf, ih]
      split
      · rfl
      · next hc => rw [hkeep c hc]
  rw [words, words, hsplit]

/-! ## Words between blanks -/

/-- The text is a word with blanks around it. -/
def Surrounds (w s : List Char) : Prop :=
  IsWord w ∧ ∃ before after, s = before ++ w ++ after ∧ (∀ c ∈ before, isBlank c) ∧
    ∀ c ∈ after, isBlank c

theorem surrounds_trim (hs : IsWord (trim s)) : Surrounds (trim s) s := by
  refine ⟨hs, s.takeWhile isBlank, ((s.dropWhile isBlank).reverse.takeWhile isBlank).reverse,
    ?_, fun c hc => List.mem_takeWhile_imp hc, fun c hc => ?_⟩
  · have hright : trim s ++ ((s.dropWhile isBlank).reverse.takeWhile isBlank).reverse =
        s.dropWhile isBlank := by
      rw [trim, ← List.reverse_append, List.takeWhile_append_dropWhile, List.reverse_reverse]
    rw [List.append_assoc, hright, List.takeWhile_append_dropWhile]
  · exact List.mem_takeWhile_imp (List.mem_reverse.1 hc)

namespace Surrounds

variable {w : List Char}

theorem trim_eq (hs : Surrounds w s) : trim s = w := by
  obtain ⟨hw, before, after, rfl, hbefore, hafter⟩ := hs
  obtain ⟨first, rest, hfirst⟩ := List.exists_cons_of_ne_nil hw.1
  obtain ⟨last, front, hlast⟩ := List.exists_cons_of_ne_nil (List.reverse_ne_nil_iff.2 hw.1)
  have hleft : (before ++ w ++ after).dropWhile isBlank = w ++ after := by
    rw [List.append_assoc, List.dropWhile_append_of_pos hbefore, hfirst, List.cons_append,
      List.dropWhile_cons_of_neg (hw.2 first (hfirst ▸ List.mem_cons_self))]
  have hright : (after.reverse ++ w.reverse).dropWhile isBlank = w.reverse := by
    have hmem : last ∈ w := List.mem_reverse.1 (hlast ▸ List.mem_cons_self)
    rw [List.dropWhile_append_of_pos fun c hc => hafter c (List.mem_reverse.1 hc), hlast,
      List.dropWhile_cons_of_neg (hw.2 last hmem)]
  rw [trim, hleft, List.reverse_append, hright, List.reverse_reverse]

theorem collapse_eq (hs : Surrounds w s) : collapse s = w := by
  obtain ⟨hw, before, after, rfl, hbefore, hafter⟩ := hs
  have blank : ∀ {t : List Char}, (∀ c ∈ t, isBlank c) → words t = [] := by
    intro t ht
    induction t with
    | nil => rfl
    | cons c t ih => rw [words_cons (ht c List.mem_cons_self), ih fun d hd => ht d (.tail _ hd)]
  have hword : words (w ++ after) = [w] := by
    have keep : ∀ ps : List (List Char),
        (w :: ps).filter (!List.isEmpty ·) = w :: ps.filter (!List.isEmpty ·) :=
      fun ps => List.filter_cons_of_pos (by simpa using hw.1)
    cases after with
    | nil => rw [List.append_nil, words, splitWhere_of_forall hw.2, keep, List.filter_nil]
    | cons c after =>
      have hrest : words after = [] := blank fun d hd => hafter d (.tail _ hd)
      rw [words] at hrest
      rw [words, splitWhere_append hw.2 (hafter c List.mem_cons_self), keep, hrest]
  have hwords : words (before ++ w ++ after) = [w] := by
    rw [List.append_assoc]
    induction before with
    | nil => exact hword
    | cons c before ih =>
      rw [List.cons_append, words_cons (hbefore c List.mem_cons_self),
        ih fun d hd => hbefore d (.tail _ hd)]
  rw [collapse, hwords, joinWith]

/-- A change of blanks to other blanks leaves the word. -/
theorem map (hs : Surrounds w s) {f : Char → Char} (hf : ∀ c, isBlank (f c) = isBlank c)
    (hkeep : ∀ c, ¬isBlank c → f c = c) : Surrounds w (s.map f) := by
  obtain ⟨hw, before, after, rfl, hbefore, hafter⟩ := hs
  have hword : w.map f = w := by
    rw [List.map_congr_left fun c hc => hkeep c (hw.2 c hc), List.map_id']
  refine ⟨hw, before.map f, after.map f, by rw [List.map_append, List.map_append, hword],
    fun c hc => ?_, fun c hc => ?_⟩
  all_goals obtain ⟨d, hd, rfl⟩ := List.mem_map.1 hc
  · rw [hf, hbefore d hd]
  · rw [hf, hafter d hd]

end Surrounds

/-! ## Names -/

/-- The code points of the blanks. -/
def blankCodes : List Nat :=
  [9, 10, 11, 12, 13, 0x20, 0x85, 0xA0, 0x1680, 0x2000, 0x2001, 0x2002, 0x2003, 0x2004, 0x2005,
    0x2006, 0x2007, 0x2008, 0x2009, 0x200A, 0x2028, 0x2029, 0x202F, 0x205F, 0x3000]

theorem mem_blankCodes (hc : isBlank c) : c.toNat ∈ blankCodes := by
  simp only [isBlank, Bool.or_eq_true, Bool.and_eq_true, decide_eq_true_eq] at hc
  simp only [blankCodes, List.mem_cons, List.not_mem_nil, or_false]
  omega

theorem not_isBlank_of_isLetterOrNumeral (hc : isLetterOrNumeral c) : ¬isBlank c := by
  intro hblank
  have outside : ∀ n ∈ blankCodes,
      (within alphabeticBoundaries n || within numberBoundaries n) = false := by decide +kernel
  have := outside _ (mem_blankCodes hblank)
  rw [isLetterOrNumeral, isLetter, this] at hc
  cases hc

theorem not_isBlank_of_isNameMark (hc : isNameMark c) : ¬isBlank c := by
  simp only [isNameMark, Bool.or_eq_true, beq_iff_eq] at hc
  rcases hc with ((rfl | rfl) | rfl) | rfl <;> decide

theorem not_isBlank_of_isAlphanum (hc : c.isAlphanum) : ¬isBlank c := by
  unfold Char.isAlphanum Char.isAlpha Char.isUpper Char.isLower Char.isDigit at hc
  simp only [Bool.or_eq_true, Bool.and_eq_true, decide_eq_true_eq, ge_iff_le,
    UInt32.le_iff_toNat_le] at hc
  have hrange : (65 ≤ c.toNat ∧ c.toNat ≤ 90 ∨ 97 ≤ c.toNat ∧ c.toNat ≤ 122) ∨
      48 ≤ c.toNat ∧ c.toNat ≤ 57 := hc
  simp only [isBlank, Bool.or_eq_true, Bool.and_eq_true, decide_eq_true_eq]
  omega

theorem isWord_of_isNCName (hs : isNCName s) : IsWord s := by
  cases s with
  | nil => cases hs
  | cons c rest =>
    obtain ⟨hc, hrest⟩ := Bool.and_eq_true_iff.1 hs
    refine ⟨List.cons_ne_nil _ _, List.forall_mem_cons.2 ⟨?_, fun d hd => ?_⟩⟩
    · rcases Bool.or_eq_true_iff.1 hc with hc | hc
      · exact not_isBlank_of_isLetterOrNumeral (Bool.or_eq_true_iff.2 (.inl hc))
      · rw [beq_iff_eq.1 hc]
        decide
    · rcases Bool.or_eq_true_iff.1 (List.all_eq_true.1 hrest d hd) with hd | hd
      · exact not_isBlank_of_isLetterOrNumeral hd
      · exact not_isBlank_of_isNameMark hd

/-- A hyphen, a point and the digits. -/
def unstartingCodes : List Nat := [45, 46, 48, 49, 50, 51, 52, 53, 54, 55, 56, 57]

theorem isLetter_eq_false_of_isDigit (hc : c.isDigit || c == '-' || c == '.') :
    isLetter c = false := by
  have outside : ∀ n ∈ unstartingCodes, within alphabeticBoundaries n = false := by decide +kernel
  refine outside _ ?_
  rcases Bool.or_eq_true_iff.1 hc with hc | hc
  · rcases Bool.or_eq_true_iff.1 hc with hc | hc
    · simp only [Char.isDigit, Bool.and_eq_true, decide_eq_true_eq, ge_iff_le,
        UInt32.le_iff_toNat_le] at hc
      have hrange : 48 ≤ c.toNat ∧ c.toNat ≤ 57 := hc
      simp only [unstartingCodes, List.mem_cons, List.not_mem_nil, or_false]
      omega
    · rw [beq_iff_eq.1 hc]
      decide
  · rw [beq_iff_eq.1 hc]
    decide

theorem colon_notMem_of_isNCName (hs : isNCName s) : ':' ∉ s := by
  cases s with
  | nil => exact List.not_mem_nil
  | cons c rest =>
    obtain ⟨hfirst, hrest⟩ := Bool.and_eq_true_iff.1 (show (_ && _) = true from hs)
    intro hmem
    rcases List.mem_cons.1 hmem with rfl | hmem
    · exact absurd hfirst (by decide +kernel)
    · exact absurd (List.all_eq_true.1 hrest _ hmem) (by decide +kernel)

/-- A name without colons is a name. -/
theorem isName_of_isNCName (hs : isNCName s) : isName s := by
  have hcolon := colon_notMem_of_isNCName hs
  cases s with
  | nil => cases hs
  | cons c rest =>
    obtain ⟨hfirst, -⟩ := Bool.and_eq_true_iff.1 (show (_ && _) = true from hs)
    have hstart : (c.isDigit || c == '-' || c == '.') = false := by
      by_contra hmark
      rw [Bool.not_eq_false] at hmark
      rw [isLetter_eq_false_of_isDigit hmark, Bool.false_or, beq_iff_eq] at hfirst
      rw [hfirst] at hmark
      cases hmark
    rw [isName, splitAt_of_not_mem hcolon, List.all_cons, hs, hstart]
    simp

theorem isWord_of_isName (hs : isName s) : IsWord s := by
  rw [isName.eq_def] at hs
  split at hs
  · cases hs
  · next c rest =>
    obtain ⟨hpieces, -⟩ := Bool.and_eq_true_iff.1 hs
    refine ⟨List.cons_ne_nil _ _, fun d hd => ?_⟩
    rcases mem_splitAt ':' hd with rfl | ⟨piece, hpiece, hd⟩
    · decide
    · rcases Bool.or_eq_true_iff.1 (List.all_eq_true.1 hpieces piece hpiece) with hempty | hname
      · rw [List.isEmpty_iff.1 hempty] at hd
        cases hd
      · exact (isWord_of_isNCName hname).2 d hd

theorem isWord_of_isNmtoken (hs : isNmtoken s) : IsWord s := by
  obtain ⟨hne, hall⟩ := Bool.and_eq_true_iff.1 hs
  refine ⟨by simpa using hne, fun c hc => ?_⟩
  have := List.all_eq_true.1 hall c hc
  rcases Bool.or_eq_true_iff.1 this with h | h
  · rcases Bool.or_eq_true_iff.1 h with h | h
    · exact not_isBlank_of_isLetterOrNumeral h
    · exact not_isBlank_of_isNameMark h
  · rw [beq_iff_eq.1 h]
    decide

theorem isWord_of_isLanguage (hs : isLanguage s) : IsWord s := by
  have subtag : ∀ {p : Char → Bool} {piece : List Char}, (∀ c, p c → c.isAlphanum) →
      isSubtag p piece → piece ≠ [] ∧ ∀ c ∈ piece, ¬isBlank c := by
    intro p piece hp hpiece
    obtain ⟨hlength, hall⟩ := Bool.and_eq_true_iff.1 hpiece
    refine ⟨fun hnil => ?_, fun c hc => not_isBlank_of_isAlphanum (hp c (List.all_eq_true.1 hall c hc))⟩
    rw [hnil] at hlength
    cases hlength
  rw [isLanguage] at hs
  cases hpieces : splitAt '-' s with
  | nil => exact absurd hpieces (splitWhere_ne_nil _ _)
  | cons first rest =>
    rw [hpieces] at hs
    obtain ⟨hfirst, hrest⟩ := Bool.and_eq_true_iff.1 hs
    have hfirst := subtag (fun c hc => by simp [Char.isAlphanum, hc]) hfirst
    have hall : ∀ piece ∈ first :: rest, ∀ c ∈ piece, ¬isBlank c :=
      List.forall_mem_cons.2 ⟨hfirst.2, fun piece hp =>
        (subtag (fun _ => id) (List.all_eq_true.1 hrest piece hp)).2⟩
    refine ⟨fun hnil => ?_, fun c hc => ?_⟩
    · rw [hnil] at hpieces
      exact hfirst.1 (List.cons.inj hpieces).1.symm
    · rcases mem_splitAt '-' hc with rfl | ⟨piece, hpiece, hc⟩
      · decide
      · exact hall piece (hpieces ▸ hpiece) c hc

end XPath.Text
