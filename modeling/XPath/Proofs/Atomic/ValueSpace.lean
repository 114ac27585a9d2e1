import XPath.Atomic.Cast
import XPath.Proofs.Number.Formats
import XPath.Proofs.Text.Words
import XPath.Proofs.Time.DurationReading
import XPath.Proofs.Time.TemporalReading

/-!
# Value spaces

The values of an atomic type, by the family of the payload: integers within the bounds of the type,
strings of its form, floating point numbers of its format, dates, times and durations with what the
type leaves out at its reference value. Decimals, booleans and octets have no further facet.
-/

namespace XPath

open Number Text Time

/-- The integers of a type, all of them within 64 bits. -/
structure ItemType.HasInteger (type : ItemType) (i : Int) : Prop where
  capacity : -2 ^ 63 ≤ i ∧ i < 2 ^ 63
  bounds : match type with
    | .int => -2 ^ 31 ≤ i ∧ i < 2 ^ 31
    | .short => -2 ^ 15 ≤ i ∧ i < 2 ^ 15
    | .byte => -2 ^ 7 ≤ i ∧ i < 2 ^ 7
    | .nonPositiveInteger => i ≤ 0
    | .negativeInteger => i < 0
    | .nonNegativeInteger => 0 ≤ i
    | .positiveInteger => 0 < i
    | .unsignedLong => 0 ≤ i ∧ i < 2 ^ 64
    | .unsignedInt => 0 ≤ i ∧ i < 2 ^ 32
    | .unsignedShort => 0 ≤ i ∧ i < 2 ^ 16
    | .unsignedByte => 0 ≤ i ∧ i < 2 ^ 8
    | _ => True

/-- The strings of a type; other types that are written like strings have all of them. -/
def ItemType.HasString (type : ItemType) (s : List Char) : Prop :=
  match type with
  | .normalizedString => '\t' ∉ s ∧ '\n' ∉ s ∧ '\r' ∉ s
  | .token => ∃ ws, (∀ w ∈ ws, IsWord w) ∧ s = joinWith ' ' ws
  | .language => isLanguage s
  | .nmtoken => isNmtoken s
  | .name => isName s
  | .ncName | .id | .idref | .entity => isNCName s
  | _ => True

/-- The payload is one that values of the type have. -/
def Scalar.InSpace (type : ItemType) : Scalar → Prop
  | .boolean _ | .decimal _ | .binary _ => True
  | .integer i => type.HasInteger i
  | .float f => f.InFormat
  | .double d => d.InFormat
  | .string s => type.HasString s.toList
  | .qName q => isNCName q.localName.toList
  | .temporal t => t.InSpace type
  | .duration d => d.InSpace type

namespace Atomic

/-- The value lies in the value space of its type. -/
def InSpace (a : Atomic) : Prop := a.scalar.InSpace a.type

/-! ## Checks -/

variable {type : ItemType} {i : Int} {s : List Char}

theorem fitsInteger_iff : fitsInteger i ↔ -2 ^ 63 ≤ i ∧ i < 2 ^ 63 := by
  rw [fitsInteger, Bool.and_eq_true, decide_eq_true_iff, decide_eq_true_iff, minInteger, maxInteger]
  omega

/-- The range check admits the integers of a type. -/
theorem hasInteger_iff : type.HasInteger i ↔ fitsInteger i ∧ integerInRange type i := by
  rw [fitsInteger_iff]
  constructor
  · rintro ⟨hcapacity, hbounds⟩
    refine ⟨hcapacity, ?_⟩
    cases type <;>
      simp only [integerInRange, Bool.and_eq_true, decide_eq_true_eq] at hbounds ⊢ <;> omega
  · rintro ⟨hcapacity, hrange⟩
    refine ⟨hcapacity, ?_⟩
    cases type <;>
      simp only [integerInRange, Bool.and_eq_true, decide_eq_true_eq] at hrange ⊢ <;> omega

/-- What a string type makes of a text is one of its strings. -/
theorem readString?_hasString {raw : List Char} (hs : readString? type raw = some s) :
    type.HasString s := by
  have checked : ∀ {p : Bool} {t : List Char}, (if p then some t else none) = some s →
      p ∧ t = s := fun h => by
    obtain ⟨hp, ht⟩ := Option.ite_none_right_eq_some.1 h
    exact ⟨hp, Option.some.inj ht⟩
  rw [readString?.eq_def] at hs
  unfold ItemType.HasString
  cases type <;> simp only at hs ⊢
  case normalizedString =>
    cases hs
    simp only [List.mem_map, not_exists, not_and]
    refine ⟨fun c _ => ?_, fun c _ => ?_, fun c _ => ?_⟩ <;> split <;> grind
  case token =>
    cases hs
    exact ⟨_, fun w => isWord_of_mem_words, rfl⟩
  all_goals
    obtain ⟨hp, rfl⟩ := checked hs
    exact hp

/-- A string of a type is what the type makes of it. -/
theorem readString?_of_hasString (hs : type.HasString s) : readString? type s = some s := by
  have checked : ∀ {p : List Char → Bool}, (∀ {t}, p t → IsWord t) → p s →
      (if p (trim s) then some (trim s) else none) = some s := by
    intro p hword hp
    rw [trim_of_not_blank (hword hp).2, if_pos hp]
  unfold ItemType.HasString at hs
  rw [readString?.eq_def]
  cases type <;> simp only at hs ⊢
  case normalizedString =>
    obtain ⟨htab, hline, hreturn⟩ := hs
    have hkeep : s.map (fun c => if c = '\t' ∨ c = '\n' ∨ c = '\r' then ' ' else c) = s.map id := by
      refine List.map_congr_left fun c hc => if_neg ?_
      rintro (rfl | rfl | rfl)
      · exact htab hc
      · exact hline hc
      · exact hreturn hc
    rw [hkeep, List.map_id]
  case token =>
    obtain ⟨ws, hws, rfl⟩ := hs
    rw [collapse, words_joinWith hws]
  case language => exact checked isWord_of_isLanguage hs
  case nmtoken => exact checked isWord_of_isNmtoken hs
  case name => exact checked isWord_of_isName hs
  case ncName | id | idref | entity => exact checked isWord_of_isNCName hs

end Atomic

end XPath
