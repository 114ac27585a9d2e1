import XPath.Proofs.Text.Digits
import XPath.Text.Octets

/-!
# Texts of octets

Octets are read back from their Base64 text (`readBase64?_base64Text`). No text of octets holds a
blank.
-/

namespace XPath.Text

variable {c : Char} {n : Nat}

theorem base64Value?_base64Digit (hn : n < 64) : base64Value? (base64Digit n) = some n := by
  have digit : ∀ n < 64, base64Value? (base64Digit n) = some n := by decide
  exact digit n hn

/-- A digit is not taken for the filling of the last group. -/
theorem base64Digit_ne (hn : n < 64) : base64Digit n ≠ '=' := fun h => by
  have := base64Value?_base64Digit hn
  rw [h] at this
  cases this

/-- A group of four digits stands for three octets. -/
theorem readBase64?_group {a b c d : Nat} {rest : List Char} (ha : a < 64) (hb : b < 64)
    (hc : c < 64) (hd : d < 64) :
    readBase64? (base64Digit a :: base64Digit b :: base64Digit c :: base64Digit d :: rest) =
      (readBase64? rest).map fun octets =>
        let n := ((a * 64 + b) * 64 + c) * 64 + d
        UInt8.ofNat (n / 65536) :: UInt8.ofNat (n / 256) :: UInt8.ofNat n :: octets := by
  rw [readBase64?]
  · simp only [base64Value?_base64Digit ha, base64Value?_base64Digit hb,
      base64Value?_base64Digit hc, base64Value?_base64Digit hd]
    cases readBase64? rest <;> rfl
  · exact fun _ h => absurd h (base64Digit_ne hd)
  · exact fun h => absurd h (base64Digit_ne hd)

/-- The number that an octet is cut out of may have any higher digits. -/
theorem ofNat_eq {a : UInt8} (hn : n % 256 = a.toNat) : UInt8.ofNat n = a := by
  apply UInt8.toNat_inj.1
  rw [UInt8.toNat_ofNat', hn]

/-- Octets are read back from their text. -/
theorem readBase64?_base64Text (octets : List UInt8) :
    readBase64? (base64Text octets) = some octets := by
  induction octets using base64Text.induct with
  | case1 => rfl
  | case2 a =>
    have ha := a.toNat_lt
    have hzero : (a.toNat / 4 * 64 + a.toNat % 4 * 16) % 16 = 0 := by omega
    simp only [base64Text, readBase64?, base64Value?_base64Digit (show a.toNat / 4 < 64 by omega),
      base64Value?_base64Digit (show a.toNat % 4 * 16 < 64 by omega), Option.bind_eq_bind,
      Option.bind_some, hzero, if_true]
    rw [ofNat_eq (a := a) (by omega)]
  | case3 a b =>
    have ha := a.toNat_lt
    have hb := b.toNat_lt
    simp only [base64Text]
    generalize hn : a.toNat * 256 + b.toNat = n
    rw [readBase64?]
    · simp only [base64Value?_base64Digit (show n / 1024 < 64 by omega),
        base64Value?_base64Digit (show n / 16 % 64 < 64 by omega),
        base64Value?_base64Digit (show n % 16 * 4 < 64 by omega), Option.bind_eq_bind,
        Option.bind_some]
      rw [if_pos (by omega), ofNat_eq (a := a) (by omega), ofNat_eq (a := b) (by omega)]
    · exact fun h => absurd h (base64Digit_ne (by omega))
  | case4 a b c rest ih =>
    have ha := a.toNat_lt
    have hb := b.toNat_lt
    have hc := c.toNat_lt
    simp only [base64Text]
    generalize hn : (a.toNat * 256 + b.toNat) * 256 + c.toNat = n
    rw [readBase64?_group (by omega) (by omega) (by omega) (by omega), ih, Option.map_some]
    simp only
    rw [ofNat_eq (a := a) (by omega), ofNat_eq (a := b) (by omega), ofNat_eq (a := c) (by omega)]

/-! ## Blanks -/

theorem not_isBlank_of_mem_hexText {octets : List UInt8} (hc : c ∈ hexText octets) : ¬isBlank c := by
  have digit : ∀ n < 16, ¬isBlank (hexDigit n) := by decide
  obtain ⟨b, -, hc⟩ := List.mem_flatMap.1 hc
  have hb := b.toNat_lt
  simp only [List.mem_cons, List.not_mem_nil, or_false] at hc
  rcases hc with rfl | rfl
  · exact digit _ (by omega)
  · exact digit _ (by omega)

theorem not_isBlank_of_mem_base64Text {octets : List UInt8} (hc : c ∈ base64Text octets) :
    ¬isBlank c := by
  have digit : ∀ n < 64, ¬isBlank (base64Digit n) := by decide
  have fill : ¬isBlank '=' := by decide
  induction octets using base64Text.induct with
  | case1 => cases hc
  | case2 a =>
    have ha := a.toNat_lt
    simp only [base64Text, List.mem_cons, List.not_mem_nil, or_false] at hc
    rcases hc with rfl | rfl | rfl | rfl
    · exact digit _ (by omega)
    · exact digit _ (by omega)
    · exact fill
    · exact fill
  | case3 a b =>
    have ha := a.toNat_lt
    have hb := b.toNat_lt
    simp only [base64Text, List.mem_cons, List.not_mem_nil, or_false] at hc
    rcases hc with rfl | rfl | rfl | rfl
    · exact digit _ (by omega)
    · exact digit _ (by omega)
    · exact digit _ (by omega)
    · exact fill
  | case4 a b c rest ih =>
    have ha := a.toNat_lt
    have hb := b.toNat_lt
    have hc' := c.toNat_lt
    simp only [base64Text, List.mem_cons] at hc
    rcases hc with rfl | rfl | rfl | rfl | hc
    · exact digit _ (by omega)
    · exact digit _ (by omega)
    · exact digit _ (by omega)
    · exact digit _ (by omega)
    · exact ih hc

end XPath.Text
