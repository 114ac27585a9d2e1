import XPath.Number.Numeral
import XPath.Proofs.Number.Amounts
import XPath.Proofs.Text.Digits
import XPath.Proofs.Text.Pieces

/-!
# Numerals of decimals

The text of a decimal is a numeral with all its digits (`Decimal.text_eq`), and reading the numeral
gives the decimal back, scale included. The canonical text drops trailing zeros; reading it gives an
equal number (`Decimal.read_canonicalText`).
-/

namespace XPath.Number

open XPath.Text

/-! ## Signs -/

theorem takeSign_of_isDigit {c : Char} {rest : List Char} (hc : c.isDigit) :
    takeSign (c :: rest) = (false, c :: rest) := by
  have hplus : c ≠ '+' := fun h => absurd hc (h ▸ by decide)
  have hminus : c ≠ '-' := fun h => absurd hc (h ▸ by decide)
  unfold takeSign
  split
  · next heq => exact absurd (List.cons.inj heq).1 hplus
  · next heq => exact absurd (List.cons.inj heq).1 hminus
  · rfl

theorem takeSign_natDigits (n : Nat) : takeSign (natDigits n) = (false, natDigits n) := by
  obtain ⟨c, rest, hcons⟩ := List.exists_cons_of_ne_nil (natDigits_ne_nil n)
  have hc : c.isDigit := allDigits_iff.1 (allDigits_natDigits n) c (hcons ▸ List.mem_cons_self)
  rw [hcons, takeSign_of_isDigit hc]

/-- An integer is read back from its text. -/
theorem readInteger?_intText (i : Int) : readInteger? (intText i).toList = some i := by
  have hdigits : ∀ n, natDigits n ≠ [] ∧ allDigits (natDigits n) := fun n =>
    ⟨natDigits_ne_nil n, allDigits_natDigits n⟩
  cases i with
  | ofNat n =>
    rw [intText, String.toList_ofList, readInteger?, takeSign_natDigits]
    simp only [hdigits n, ne_eq, not_false_eq_true, and_self, if_true, digitsValue_natDigits]
    rfl
  | negSucc n =>
    rw [intText, String.toList_ofList, readInteger?, takeSign]
    simp only [hdigits (n + 1), ne_eq, not_false_eq_true, and_self, if_true, digitsValue_natDigits]
    rfl

theorem not_isBlank_of_mem_intText {i : Int} {c : Char} (hc : c ∈ (intText i).toList) :
    ¬isBlank c := by
  have digit : ∀ {n}, c ∈ natDigits n → ¬isBlank c := fun hc =>
    not_isBlank_of_isDigit (allDigits_iff.1 (allDigits_natDigits _) c hc)
  cases i with
  | ofNat n =>
    rw [intText, String.toList_ofList] at hc
    exact digit hc
  | negSucc n =>
    rw [intText, String.toList_ofList] at hc
    rcases List.mem_cons.1 hc with rfl | hc
    · decide
    · exact digit hc

namespace Numeral

/-- The numeral written out; a point only stands before digits. -/
def text (n : Numeral) : List Char :=
  (if n.negative then ['-'] else []) ++
    (n.whole ++ if n.fraction = [] then [] else '.' :: n.fraction)

/-- Digits on both sides, at least one of them before the point. -/
structure IsPlain (n : Numeral) : Prop where
  whole_ne_nil : n.whole ≠ []
  whole : allDigits n.whole
  fraction : allDigits n.fraction

variable {n : Numeral} {c : Char}

theorem mem_text (hn : n.IsPlain) (hc : c ∈ n.text) :
    c.isDigit ∨ c = '.' ∨ (c = '-' ∧ n.negative) := by
  rw [text, List.mem_append, List.mem_append] at hc
  rcases hc with hc | hc | hc
  · obtain ⟨hneg, hc⟩ := List.mem_ite_nil_right.1 hc
    exact .inr (.inr ⟨List.mem_singleton.1 hc, hneg⟩)
  · exact .inl (allDigits_iff.1 hn.whole c hc)
  · obtain ⟨-, hc⟩ := List.mem_ite_nil_left.1 hc
    rcases List.mem_cons.1 hc with rfl | hc
    · exact .inr (.inl rfl)
    · exact .inl (allDigits_iff.1 hn.fraction c hc)

theorem takeSign_text (hn : n.IsPlain) :
    takeSign n.text = (n.negative, n.whole ++ if n.fraction = [] then [] else '.' :: n.fraction) := by
  obtain ⟨c, rest, hwhole⟩ := List.exists_cons_of_ne_nil hn.whole_ne_nil
  have hc : c.isDigit := allDigits_iff.1 hn.whole c (hwhole ▸ List.mem_cons_self)
  rw [text]
  cases n.negative with
  | true => rfl
  | false =>
    simp only [Bool.false_eq_true, if_false, List.nil_append, hwhole, List.cons_append]
    exact takeSign_of_isDigit hc

theorem cutAt_point (hn : n.IsPlain) :
    (cutAt '.' (n.whole ++ if n.fraction = [] then [] else '.' :: n.fraction)).getD
      (n.whole ++ (if n.fraction = [] then [] else '.' :: n.fraction), []) =
        (n.whole, n.fraction) := by
  have hpoint : '.' ∉ n.whole := not_mem_of_allDigits hn.whole rfl
  split
  case isTrue h => rw [List.append_nil, cutAt_eq_none_iff.2 hpoint, h]; rfl
  case isFalse => rw [cutAt_append hpoint]; rfl

/-- A numeral that is written out is read back. -/
theorem read?_text (hn : n.IsPlain) : read? n.text = some n := by
  rw [read?, takeSign_text hn]
  simp only [cutAt_point hn]
  exact if_pos ⟨.inl hn.whole_ne_nil, hn.whole, hn.fraction⟩

end Numeral

namespace Decimal

/-- The digits of a decimal, as many after the point as its scale says. -/
def numeral (d : Decimal) : Numeral :=
  let digits := padded (d.scale + 1) d.coefficient
  ⟨d.negative, digits.take (digits.length - d.scale), digits.drop (digits.length - d.scale)⟩

theorem numeral_append (d : Decimal) :
    d.numeral.whole ++ d.numeral.fraction = padded (d.scale + 1) d.coefficient :=
  List.take_append_drop ..

theorem scale_lt_length (d : Decimal) : d.scale < (padded (d.scale + 1) d.coefficient).length := by
  rw [length_padded]
  omega

theorem length_fraction (d : Decimal) : d.numeral.fraction.length = d.scale := by
  have := d.scale_lt_length
  rw [numeral, List.length_drop]
  omega

theorem isPlain_numeral (d : Decimal) : d.numeral.IsPlain := by
  have hdigits := allDigits_padded (d.scale + 1) d.coefficient
  rw [← numeral_append] at hdigits
  obtain ⟨hwhole, hfraction⟩ := allDigits_append.1 hdigits
  refine ⟨fun hnil => ?_, hwhole, hfraction⟩
  have hlength := d.scale_lt_length
  have hfraction := d.length_fraction
  rw [← numeral_append, hnil, List.nil_append] at hlength
  omega

/-- The text of a decimal is its numeral. -/
theorem text_eq (d : Decimal) : d.text = d.numeral.text := by
  have hfraction : d.numeral.fraction = [] ↔ d.scale = 0 := by
    rw [← List.length_eq_zero_iff, d.length_fraction]
  have hbody : (if d.scale = 0 then padded (d.scale + 1) d.coefficient
      else d.numeral.whole ++ '.' :: d.numeral.fraction) =
      d.numeral.whole ++ if d.numeral.fraction = [] then [] else '.' :: d.numeral.fraction := by
    by_cases hs : d.scale = 0
    · rw [if_pos hs, if_pos (hfraction.2 hs), List.append_nil, ← numeral_append, hfraction.2 hs,
        List.append_nil]
    · rw [if_neg hs, if_neg (mt hfraction.1 hs)]
  rw [Numeral.text, ← hbody, text]
  show (if d.negative then '-' :: _ else _) = (if d.negative then ['-'] else []) ++ _
  cases d.negative <;> rfl

/-- Digits after the point are taken as long as they fit. -/
theorem readFraction?_eq {negative : Bool} {c s : Nat} {digits : List Char}
    (hd : allDigits digits) (hs : s + digits.length ≤ maxScale)
    (hc : c * 10 ^ digits.length + digitsValue digits < coefficientLimit) :
    readFraction? negative c s digits =
      ofParts? negative (c * 10 ^ digits.length + digitsValue digits) (s + digits.length) := by
  induction digits generalizing c s with
  | nil => simp [readFraction?, digitsValue]
  | cons digit rest ih =>
    obtain ⟨-, hrest⟩ := allDigits_append.1 (show allDigits ([digit] ++ rest) from hd)
    have hvalue : digitsValue (digit :: rest) =
        (digit.toNat - 48) * 10 ^ rest.length + digitsValue rest := by
      have := digitsValue_append [digit] rest
      simpa [digitsValue] using this
    have htotal : c * 10 ^ (digit :: rest).length + digitsValue (digit :: rest) =
        (c * 10 + (digit.toNat - 48)) * 10 ^ rest.length + digitsValue rest := by
      rw [hvalue, List.length_cons, Nat.pow_succ]
      ring
    rw [htotal] at hc ⊢
    have hfits : c * 10 + (digit.toNat - 48) < coefficientLimit := by
      have : c * 10 + (digit.toNat - 48) ≤
          (c * 10 + (digit.toNat - 48)) * 10 ^ rest.length :=
        Nat.le_mul_of_pos_right _ (Nat.pow_pos (by decide))
      omega
    rw [List.length_cons] at hs ⊢
    rw [readFraction?, if_pos ⟨by omega, hfits⟩, ih hrest (by omega) hc]
    congr 1
    omega

/-- A decimal is read back from its text, a zero without its sign. -/
theorem read_numeralText (d : Decimal) :
    (Numeral.read? d.text).bind ofNumeral? =
      some { d with negative := d.negative && d.coefficient ≠ 0 } := by
  have hplain := d.isPlain_numeral
  have hsum : digitsValue d.numeral.whole * 10 ^ d.numeral.fraction.length +
      digitsValue d.numeral.fraction = d.coefficient := by
    rw [← digitsValue_append, numeral_append, digitsValue_padded]
  have hwhole : digitsValue d.numeral.whole < coefficientLimit := by
    have : digitsValue d.numeral.whole ≤
        digitsValue d.numeral.whole * 10 ^ d.numeral.fraction.length :=
      Nat.le_mul_of_pos_right _ (Nat.pow_pos (by decide))
    have := d.coefficient_lt
    omega
  have hscale : 0 + d.numeral.fraction.length ≤ maxScale := by
    rw [Nat.zero_add, d.length_fraction]
    exact d.scale_le
  rw [text_eq, Numeral.read?_text hplain, Option.bind_some, ofNumeral?]
  simp only [hwhole, if_true]
  rw [readFraction?_eq hplain.fraction hscale (by rw [hsum]; exact d.coefficient_lt), hsum,
    Nat.zero_add, d.length_fraction, ofParts?_of_lt d.coefficient_lt d.scale_le]
  rfl

/-! ## Trailing zeros -/

theorem stripZeros_spec (c s : Nat) :
    (stripZeros c s).2 ≤ s ∧ (stripZeros c s).1 * 10 ^ (s - (stripZeros c s).2) = c := by
  induction s generalizing c with
  | zero => simp [stripZeros]
  | succ s ih =>
    rw [stripZeros]
    split
    case isTrue h =>
      obtain ⟨hle, heq⟩ := ih (c / 10)
      refine ⟨by omega, ?_⟩
      rw [Nat.succ_sub hle, Nat.pow_succ, ← Nat.mul_assoc, heq]
      omega
    case isFalse => simp

/-- A decimal without its trailing zeros is the same number. -/
theorem normalize_spec (d : Decimal) :
    ∃ c s, s ≤ d.scale ∧ c * 10 ^ (d.scale - s) = d.coefficient ∧
      d.normalize.coefficient = c ∧ d.normalize.scale = s ∧
      d.normalize.negative = (d.negative && decide (c ≠ 0)) := by
  obtain ⟨hle, heq⟩ := stripZeros_spec d.coefficient d.scale
  have hpow : 0 < 10 ^ (d.scale - (stripZeros d.coefficient d.scale).2) := Nat.pow_pos (by decide)
  have hlt : (stripZeros d.coefficient d.scale).1 < coefficientLimit := by
    have := Nat.le_mul_of_pos_right (stripZeros d.coefficient d.scale).1 hpow
    have := d.coefficient_lt
    omega
  have hs : (stripZeros d.coefficient d.scale).2 ≤ maxScale := hle.trans d.scale_le
  refine ⟨_, _, hle, heq, ?_⟩
  rw [normalize]
  simp only [ofParts?_of_lt hlt hs, Option.getD_some]
  exact ⟨trivial, trivial, trivial⟩

theorem units_normalize (d : Decimal) : d.normalize.units = d.units := by
  obtain ⟨c, s, hs, hc, hcoefficient, hscale, hneg⟩ := d.normalize_spec
  have hpow : c * 10 ^ (maxScale - s) = d.coefficient * 10 ^ (maxScale - d.scale) := by
    rw [← hc, Nat.mul_assoc, ← Nat.pow_add]
    congr 2
    have := d.scale_le
    omega
  have hcast : (c : Int) * ((10 ^ (maxScale - s) : Nat) : Int) =
      (d.coefficient : Int) * ((10 ^ (maxScale - d.scale) : Nat) : Int) := by exact_mod_cast hpow
  rw [units, units, signed, signed, hcoefficient, hscale, hneg]
  simp only [Nat.pow_eq]
  by_cases hc0 : c = 0
  · have hd0 : d.coefficient = 0 := by rw [← hc, hc0, Nat.zero_mul]
    simp [hc0, hd0]
  · simp only [ne_eq, hc0, not_false_eq_true, decide_true, Bool.and_true]
    split
    · rw [Int.neg_mul, Int.neg_mul, hcast]
    · exact hcast

theorem units_eq_zero {d : Decimal} (hd : d.isZero) : d.units = 0 := by
  have hc : d.coefficient = 0 := by simpa [isZero] using hd
  simp [units, signed, hc]

theorem not_isBlank_of_mem_canonicalText {d : Decimal} {c : Char} (hc : c ∈ d.canonicalText) :
    ¬isBlank c := by
  rw [canonicalText] at hc
  split at hc
  · rw [List.mem_singleton.1 hc]
    decide
  · rw [text_eq] at hc
    rcases Numeral.mem_text d.normalize.isPlain_numeral hc with hc | rfl | ⟨rfl, -⟩
    · exact not_isBlank_of_isDigit hc
    · decide
    · decide

/-- The canonical text of a decimal is read as an equal number. -/
theorem read_canonicalText (d : Decimal) :
    ∃ x, (Numeral.read? d.canonicalText).bind ofNumeral? = some x ∧ x.equal d := by
  rw [canonicalText]
  by_cases hd : d.isZero
  · refine ⟨zero, by rw [if_pos hd]; rfl, ?_⟩
    exact decide_eq_true (units_eq_zero hd).symm
  · rw [if_neg hd, read_numeralText]
    refine ⟨_, rfl, decide_eq_true ?_⟩
    rw [← units_normalize d, units, units, signed, signed]
    by_cases hc : d.normalize.coefficient = 0
    · simp [hc]
    · simp [hc]

/-! ## Whole numbers -/

theorem truncate_ofParts {negative : Bool} {c s : Nat} {d : Decimal}
    (hd : ofParts? negative c s = some d) :
    d.truncate = if negative then -((c / 10 ^ s : Nat) : Int) else (c / 10 ^ s : Nat) := by
  obtain ⟨hnegative, hc, hs⟩ := ofParts?_eq_some hd
  rw [truncate, hnegative, hc, hs]
  rcases Nat.eq_zero_or_pos c with rfl | hpos
  · simp
  · simp [Nat.ne_of_gt hpos]

theorem truncate_ofInt {i : Int} (hi : i.natAbs < coefficientLimit) : (ofInt i).truncate = i := by
  have hparts := @ofParts?_of_lt (i < 0) _ _ hi (Nat.zero_le maxScale)
  rw [ofInt, ofInt?, hparts, Option.getD_some, truncate_ofParts hparts, Nat.pow_zero, Nat.div_one]
  simp only [decide_eq_true_eq]
  split <;> omega

theorem truncate_trunc (d : Decimal) : d.trunc.truncate = d.truncate := by
  simp [truncate, trunc]

/-- The text of an integer is read as a decimal with that integer part. -/
theorem read_integer {s : List Char} {i : Int} (hs : readInteger? s = some i)
    (hi : i.natAbs < coefficientLimit) :
    ∃ d, (Numeral.read? s).bind ofNumeral? = some d ∧ d.truncate = i := by
  rw [readInteger?] at hs
  generalize hsign : takeSign s = parts at hs
  obtain ⟨negative, body⟩ := parts
  obtain ⟨⟨hbody, hdigits⟩, hs⟩ := Option.ite_none_right_eq_some.1 hs
  have hs := Option.some.inj hs
  have hpoint : cutAt '.' body = none := cutAt_eq_none_iff.2 (not_mem_of_allDigits hdigits rfl)
  have hread : Numeral.read? s = some ⟨negative, body, []⟩ := by
    rw [Numeral.read?, hsign]
    simp only [hpoint, Option.getD_none]
    exact if_pos ⟨.inl hbody, hdigits, rfl⟩
  have hlt : digitsValue body < coefficientLimit := by
    rw [← hs] at hi
    cases negative <;> simpa using hi
  have hparts := @ofParts?_of_lt negative _ _ hlt (Nat.zero_le maxScale)
  have htruncate := truncate_ofParts hparts
  rw [Nat.pow_zero, Nat.div_one] at htruncate
  refine ⟨_, ?_, htruncate.trans hs⟩
  rw [hread, Option.bind_some, ofNumeral?]
  simp only [hlt, if_true]
  exact hparts

end Decimal

end XPath.Number
