import XPath.Proofs.Atomic.ValueSpace
import XPath.Proofs.Number.Numerals
import XPath.Proofs.Text.Octets
import XPath.Proofs.Time.TemporalText

/-!
# Canonical texts

A value is cast back from its text: as an untyped value the text casts to the type of the value and
gives the value again (`Atomic.castWith_text`).
-/

namespace XPath

open Number Text Time

variable {ns : Namespaces} {type : ItemType}

/-- The types with one text for each value, which is read back; floating point numbers are rounded,
qualified names lose their namespace, and durations have a theorem of their own. -/
def ItemType.hasCanonicalText (t : ItemType) : Bool :=
  t.isAtomic && !t.isAbstract && !([.float, .double, .qName].contains t) && !t.isSubtypeOf .duration

/-- The same payload; decimals are compared as numbers. -/
def Scalar.Same : Scalar → Scalar → Prop
  | .decimal x, .decimal y => x.equal y
  | s, t => s = t

namespace Atomic

theorem create_of_fits (scalar : Scalar) (h : scalar.fits type = true) :
    create (.known type) scalar = .ok ⟨type, scalar, h⟩ := by
  rw [create, ofScalar?, dif_pos h]

/-! ## Lexical forms -/

theorem ofLexical_boolean (b : Bool) :
    ofLexical ns .boolean (if b then "true" else "false") = .ok (boolean b) := by
  cases b <;> rfl

theorem ofLexical_decimal (ns : Namespaces) (d : Number.Decimal) :
    ∃ x, ofLexical ns .decimal (String.ofList d.canonicalText) = .ok (decimal x) ∧ x.equal d := by
  obtain ⟨x, hread, hequal⟩ := Number.Decimal.read_canonicalText d
  refine ⟨x, ?_, hequal⟩
  have htrim : trimString (String.ofList d.canonicalText) = d.canonicalText := by
    rw [trimString, String.toList_ofList,
      trim_of_not_blank fun c => Number.Decimal.not_isBlank_of_mem_canonicalText]
  rw [ofLexical, htrim]
  simp only [show ItemType.decimal.primitive? = some .decimal by decide, hread]

theorem ofLexical_integer {i : Int} (htype : type.isSubtypeOf .integer) (hi : type.HasInteger i) :
    ofLexical ns type (intText i) = .ok ⟨type, .integer i, htype⟩ := by
  have hprimitive : type.primitive? = some .integer := by
    revert htype
    cases type <;> decide
  obtain ⟨hfits, hrange⟩ := hasInteger_iff.1 hi
  have htrim : trimString (intText i) = (intText i).toList :=
    trim_of_not_blank fun c => not_isBlank_of_mem_intText
  rw [ofLexical, htrim]
  simp only [hprimitive, readInteger?_intText, hfits, if_true, makeInteger, hrange]
  exact create_of_fits (.integer i) htype

theorem ofLexical_string {s : String} (htype : type.isSubtypeOf .string)
    (hs : type.HasString s.toList) :
    ofLexical ns type s = .ok ⟨type, .string s, by simp [Scalar.fits, htype]⟩ := by
  have hprimitive : type.primitive? = some .string := by
    revert htype
    cases type <;> decide
  rw [ofLexical]
  simp only [hprimitive, readString?_of_hasString hs, String.ofList_toList]
  exact create_of_fits (.string s) _

theorem ofLexical_hexBinary (octets : List UInt8) :
    ofLexical ns .hexBinary (String.ofList (hexText octets)) =
      .ok ⟨.hexBinary, .binary octets, rfl⟩ := by
  have htrim : trimString (String.ofList (hexText octets)) = hexText octets := by
    rw [trimString, String.toList_ofList, trim_of_not_blank fun c => not_isBlank_of_mem_hexText]
  rw [ofLexical, htrim]
  simp only [show ItemType.hexBinary.primitive? = some .hexBinary by decide, readHex?_hexText]
  rfl

theorem ofLexical_base64Binary (octets : List UInt8) :
    ofLexical ns .base64Binary (String.ofList (base64Text octets)) =
      .ok ⟨.base64Binary, .binary octets, rfl⟩ := by
  have hblank : ∀ c ∈ base64Text octets, ¬isBlank c := fun c => not_isBlank_of_mem_base64Text
  have htrim : trimString (String.ofList (base64Text octets)) = base64Text octets := by
    rw [trimString, String.toList_ofList, trim_of_not_blank hblank]
  have hfilter : (base64Text octets).filter (!isBlank ·) = base64Text octets :=
    List.filter_eq_self.2 fun c hc => by simpa using hblank c hc
  rw [ofLexical, htrim]
  simp only [show ItemType.base64Binary.primitive? = some .base64Binary by decide, hfilter,
    readBase64?_base64Text]
  rfl

theorem ofLexical_temporalType {raw : String} (htype : type ∈ temporalTypes) :
    ofLexical ns type raw =
      (Temporal.parse type (String.ofList (trimString raw))).bind fun t =>
        create (.known type) (.temporal t) := by
  simp only [temporalTypes, List.mem_cons, List.not_mem_nil, or_false] at htype
  rcases htype with rfl | rfl | rfl | rfl | rfl | rfl | rfl | rfl | rfl <;> rfl

theorem fits_temporal_iff {t : Temporal} :
    (Scalar.temporal t).fits type = true ↔ type ∈ temporalTypes := by
  simp [Scalar.fits, temporalTypes, or_assoc]

theorem ofLexical_temporal {t : Temporal} (htype : type ∈ temporalTypes) (ht : t.InSpace type) :
    ofLexical ns type (String.ofList (t.text type)) =
      .ok ⟨type, .temporal t, fits_temporal_iff.2 htype⟩ := by
  have htrim : trimString (String.ofList (t.text type)) = t.text type := by
    rw [trimString, String.toList_ofList, trim_of_not_blank fun c => not_isBlank_of_mem_text]
  have hparse : Temporal.parse type (String.ofList (t.text type)) = .ok t := by
    rw [Temporal.parse, String.toList_ofList, Temporal.read?_text htype ht]
  rw [ofLexical_temporalType htype, htrim, hparse]
  exact create_of_fits (.temporal t) _

/-! ## Casts -/

/-- An untyped value is cast by its lexical form. -/
theorem castTo_untyped {s : String} (hatomic : type.isAtomic) (habstract : type.isAbstract = false)
    (huntyped : type ≠ .untypedAtomic) (hstring : type ≠ .string) :
    (untyped s).castTo ns type = ofLexical ns type s := by
  have hself : ¬(untyped s).type = type := fun h => huntyped h.symm
  rw [castTo]
  simp only [hatomic, habstract, Bool.not_true, Bool.false_eq_true, if_false, hself, huntyped,
    hstring]
  exact if_pos rfl

/-- A value of a type with canonical texts is cast back from its text. -/
theorem castTo_text {a : Atomic} (ha : a.InSpace) (htype : a.type.hasCanonicalText)
    (huri : a.type = .anyUri → trimString a.text = a.text.toList) :
    ∃ b, (untyped a.text).castTo ns a.type = .ok b ∧ b.type = a.type ∧ b.scalar.Same a.scalar := by
  obtain ⟨type, scalar, hfits⟩ := a
  simp only [ItemType.hasCanonicalText, Bool.and_eq_true, Bool.not_eq_true'] at htype
  obtain ⟨⟨⟨hatomic, habstract⟩, hcanonical⟩, hduration⟩ := htype
  have hcast : ∀ {s}, type ≠ .untypedAtomic → type ≠ .string →
    (untyped s).castTo ns type = ofLexical ns type s := castTo_untyped hatomic habstract
  cases scalar with
  | boolean b =>
    obtain rfl : type = .boolean := of_decide_eq_true hfits
    rw [hcast (by decide) (by decide)]
    exact ⟨_, ofLexical_boolean b, rfl, rfl⟩
  | integer i =>
    have hinteger : type.isSubtypeOf .integer := hfits
    rw [hcast (by rintro rfl; revert hinteger; decide) (by rintro rfl; revert hinteger; decide)]
    exact ⟨_, ofLexical_integer hinteger ha, rfl, rfl⟩
  | decimal d =>
    obtain rfl : type = .decimal := of_decide_eq_true hfits
    obtain ⟨x, hx, hequal⟩ := ofLexical_decimal ns d
    rw [hcast (by decide) (by decide)]
    exact ⟨_, hx, rfl, hequal⟩
  | float f =>
    obtain rfl : type = .float := of_decide_eq_true hfits
    exact absurd hcanonical (by decide)
  | double d =>
    obtain rfl : type = .double := of_decide_eq_true hfits
    exact absurd hcanonical (by decide)
  | string s =>
    by_cases huntyped : type = .untypedAtomic
    · subst huntyped
      exact ⟨_, rfl, rfl, rfl⟩
    by_cases hstring : type = .string
    · subst hstring
      exact ⟨_, rfl, rfl, rfl⟩
    rw [hcast huntyped hstring]
    by_cases hanyUri : type = .anyUri
    · subst hanyUri
      refine ⟨anyUri s, ?_, rfl, rfl⟩
      have htrim : trimString s = s.toList := huri rfl
      show Except.ok (anyUri (String.ofList (trimString s))) = .ok (anyUri s)
      rw [htrim, String.ofList_toList]
    · have hsub : type.isSubtypeOf .string := by
        have hnotation : type ≠ .notationName := by
          rintro rfl
          cases habstract
        simpa [Scalar.fits, huntyped, hanyUri, hnotation] using hfits
      exact ⟨_, ofLexical_string hsub ha, rfl, rfl⟩
  | qName q =>
    obtain rfl : type = .qName := of_decide_eq_true hfits
    exact absurd hcanonical (by decide)
  | temporal t =>
    have htemporal := fits_temporal_iff.1 hfits
    rw [hcast (by rintro rfl; revert htemporal; decide) (by rintro rfl; revert htemporal; decide)]
    exact ⟨_, ofLexical_temporal htemporal ha, rfl, rfl⟩
  | duration d =>
    have : type.isSubtypeOf .duration := hfits
    rw [hduration] at this
    cases this
  | binary octets =>
    have hbinary : type = .hexBinary ∨ type = .base64Binary := by simpa [Scalar.fits] using hfits
    rcases hbinary with rfl | rfl
    · rw [hcast (by decide) (by decide)]
      exact ⟨_, ofLexical_hexBinary octets, rfl, rfl⟩
    · rw [hcast (by decide) (by decide)]
      exact ⟨_, ofLexical_base64Binary octets, rfl, rfl⟩

/-- Canonical texts stand for their values: a text casts to the value that it was made from, and a
date or time may be written in its canonical form whatever form it was read from. -/
theorem castWith_text :
    (∀ (ns : Namespaces) (a : Atomic), a.InSpace → a.type.hasCanonicalText →
      (a.type = .anyUri → trimString a.text = a.text.toList) →
      ∃ b, (untyped a.text).castWith ns (.known a.type) = .ok b ∧ b.type = a.type ∧
        b.scalar.Same a.scalar) ∧
    ∀ (type : ItemType) (s : String) (t : Temporal), Temporal.parse type s = .ok t →
      Temporal.parse type (String.ofList (t.text type)) = .ok t := by
  refine ⟨fun ns a ha htype huri => castTo_text ha htype huri, fun type s t ht => ?_⟩
  have hread : Temporal.read? type s.toList = some t := by
    rw [Temporal.parse] at ht
    split at ht
    · next heq => rw [heq, Except.ok.inj ht]
    · cases ht
  rw [Temporal.parse, String.toList_ofList, Temporal.read?_canonical hread]

/-- An identifier with a space inside, and the end of a day in a year with five digits. -/
theorem castWith_text_yearEnd :
    (∃ b, (untyped "urn:a b").castWith .minimal (.known .anyUri) = .ok b ∧ b.type = .anyUri ∧
      b.scalar.Same (.string "urn:a b")) ∧
    ∃ t, Temporal.parse .dateTime "-12026-12-31T24:00:00.0-13:30" = .ok t ∧
      t.text .dateTime = "-12025-01-01T00:00:00-13:30".toList ∧
      Temporal.parse .dateTime (String.ofList (t.text .dateTime)) = .ok t := by
  have ht : Temporal.parse .dateTime "-12026-12-31T24:00:00.0-13:30" =
      .ok ⟨⟨⟨-12025, 1, 1⟩, .midnight⟩, some (-48600)⟩ := by decide +kernel
  refine ⟨castWith_text.1 .minimal (anyUri "urn:a b") trivial (by decide) fun _ => by decide +kernel,
    _, ht, by decide +kernel, castWith_text.2 _ _ _ ht⟩

end Atomic

end XPath
