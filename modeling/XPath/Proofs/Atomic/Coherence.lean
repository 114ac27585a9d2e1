import XPath.Atomic.Compare
import XPath.Proofs.Atomic.Canonical
import XPath.Proofs.Atomic.Casting
import XPath.Proofs.Time.DurationText

/-!
# Casts by way of a supertype

What a cast to a type gives is also had in two steps, by way of any concrete supertype
(`Atomic.castWith_by_way`). Proper supertypes occur in four families. In each of them the casts are
first described without the route that they take: a string type reads the text of a value
(`castTo_string_iff`), every integer type takes the same integer from it (`castTo_integer_iff`), the
duration types take parts of the same duration, and a date-time stamp is a date-time with an offset.
-/

namespace XPath

open Number Text Time

variable {ns : Namespaces} {target between type : ItemType}

/-! ## The hierarchy -/

/-- Where the supertype is another type, both are strings, numbers, durations or date-times. -/
theorem ItemType.supertype_cases (hsub : target.isSubtypeOf between) (hatomic : between.isAtomic)
    (habstract : between.isAbstract = false) :
    target = between ∨
      (target.isSubtypeOf .string ∧ between.isSubtypeOf .string) ∨
      (target.isSubtypeOf .integer ∧ (between.isSubtypeOf .integer ∨ between = .decimal)) ∨
      (target.isSubtypeOf .duration ∧ between = .duration) ∨
      (target = .dateTimeStamp ∧ between = .dateTime) := by
  have key : ∀ p ∈ target.ancestry, p.isAtomic → p.isAbstract = false →
      target = p ∨
        (target.isSubtypeOf .string ∧ p.isSubtypeOf .string) ∨
        (target.isSubtypeOf .integer ∧ (p.isSubtypeOf .integer ∨ p = .decimal)) ∨
        (target.isSubtypeOf .duration ∧ p = .duration) ∨
        (target = .dateTimeStamp ∧ p = .dateTime) := by
    cases target <;> decide
  exact key between (List.contains_iff_mem.1 hsub) hatomic habstract

/-- The concrete types that are neither string types nor written like them. -/
def ItemType.isParsed (t : ItemType) : Bool :=
  t.isAtomic && !t.isAbstract && !t.isSubtypeOf .string && !([.untypedAtomic, .anyUri].contains t)

theorem ItemType.isParsed_integer (ht : target.isSubtypeOf .integer) :
    target.isParsed ∧ target.primitive? = some .integer := by
  revert ht
  cases target <;> decide

theorem ItemType.isParsed_duration (ht : target.isSubtypeOf .duration) :
    target.isParsed ∧ target.primitive? = some .duration := by
  revert ht
  cases target <;> decide

/-- The payloads of the four families. -/
structure Scalar.Payloads (type : ItemType) (scalar : Scalar) : Prop where
  string : type.isSubtypeOf .string → ∃ s, scalar = .string s
  integer : type.isSubtypeOf .integer → ∃ i, scalar = .integer i
  decimal : type = .decimal → ∃ d, scalar = .decimal d
  duration : type.isSubtypeOf .duration → ∃ d, scalar = .duration d
  dateTimeStamp : type = .dateTimeStamp → ∃ t, scalar = .temporal t

theorem Scalar.payloads {scalar : Scalar} (hfits : scalar.fits type) : scalar.Payloads type := by
  constructor <;> intro ht <;> cases scalar <;> first
    | exact ⟨_, rfl⟩
    | exfalso
      simp only [Scalar.fits] at hfits
      revert hfits ht
      cases type <;> decide

namespace Atomic

variable {a r : Atomic}

/-- The checked constructor gives the value of the type with the payload. -/
theorem create_eq_ok_iff {scalar : Scalar} :
    create (.known target) scalar = .ok r ↔ r.type = target ∧ r.scalar = scalar := by
  rw [create, ofScalar?]
  constructor
  · intro h
    split at h
    · next heq =>
      obtain ⟨hfits, heq⟩ := Option.dite_none_right_eq_some.1 heq
      rw [← Except.ok.inj h, ← Option.some.inj heq]
      exact ⟨rfl, rfl⟩
    · cases h
  · rintro ⟨rfl, rfl⟩
    rw [dif_pos r.fits]

theorem ok_eq_ok_iff : (Except.ok a : Except Error Atomic) = .ok r ↔
    r.type = a.type ∧ r.scalar = a.scalar := by
  obtain ⟨type, scalar, hfits⟩ := a
  obtain ⟨type', scalar', hfits'⟩ := r
  simp [eq_comm]

/-- A cast to a type whose values are no texts takes one of three routes. -/
theorem castTo_of_isParsed (ht : target.isParsed) :
    a.castTo ns target =
      if a.type = target then .ok a
      else if a.isStringLike then ofLexical ns target a.text
      else a.convert target := by
  simp only [ItemType.isParsed, Bool.and_eq_true, Bool.not_eq_true', List.contains_cons,
    List.contains_nil, Bool.or_false, Bool.or_eq_false_iff, beq_eq_false_iff_ne] at ht
  obtain ⟨⟨⟨hatomic, habstract⟩, hstring⟩, huntyped, huri⟩ := ht
  have hnot : target ≠ .string := fun h => by
    rw [h] at hstring
    cases hstring
  simp only [castTo, hatomic, habstract, hstring, huntyped, huri, hnot, Bool.not_true,
    Bool.false_eq_true, if_false, or_self]

theorem ofLexical_duration {s : String} (ht : target.isSubtypeOf .duration) :
    ofLexical ns target s = (do
      create (.known target) (.duration (← Duration.parse target (String.ofList (trimString s))))) := by
  have hprimitive := (ItemType.isParsed_duration ht).2
  rw [ofLexical]
  simp only [hprimitive]

/-- A cast that succeeds gives a value of the target type. -/
theorem type_of_castTo (ha : a.InSpace) (hr : a.castTo ns target = .ok r) :
    r.type = target ∧ r.InSpace := by
  by_cases hfit : target.isSubtypeOf .duration → a.isStringLike →
      Duration.read target (trimString a.text) ≠ .tooLarge
  · have hlands : Lands target (a.castTo ns target) := lands_castTo ha hfit
    rw [hr] at hlands
    cases hlands with
    | ok htype hspace => exact ⟨htype, hspace⟩
  · push Not at hfit
    obtain ⟨hduration, hlike, hlarge⟩ := hfit
    rw [castTo_of_isParsed (ItemType.isParsed_duration hduration).1] at hr
    split_ifs at hr with hself
    · cases hr
      exact ⟨hself, ha⟩
    · rw [ofLexical_duration hduration, Duration.parse, String.toList_ofList, hlarge] at hr
      cases hr

/-! ## Strings -/

/-- Line ends and tabs as spaces. -/
def spaced (c : Char) : Char := if c = '\t' ∨ c = '\n' ∨ c = '\r' then ' ' else c

theorem isBlank_spaced (c : Char) : isBlank (spaced c) = isBlank c := by
  rw [spaced]
  split
  case isTrue h => rcases h with rfl | rfl | rfl <;> rfl
  case isFalse => rfl

theorem spaced_of_not_isBlank {c : Char} (hc : ¬isBlank c) : spaced c = c := by
  refine if_neg ?_
  rintro (rfl | rfl | rfl) <;> exact hc rfl

/-- The string types whose strings are single words. -/
def wordTypes : List ItemType := [.language, .nmtoken, .name, .ncName, .id, .idref, .entity]

theorem isWord_of_hasString {s : List Char} (htype : type ∈ wordTypes) (hs : type.HasString s) :
    IsWord s := by
  simp only [wordTypes, List.mem_cons, List.not_mem_nil, or_false] at htype
  rcases htype with rfl | rfl | rfl | rfl | rfl | rfl | rfl
  · exact isWord_of_isLanguage hs
  · exact isWord_of_isNmtoken hs
  · exact isWord_of_isName hs
  all_goals exact isWord_of_isNCName hs

/-- These types take a text without the blanks around it. -/
theorem readString?_word_iff {s t : List Char} (htype : type ∈ wordTypes) :
    readString? type s = some t ↔ type.HasString t ∧ trim s = t := by
  have checked : ∀ {p : List Char → Bool},
      (if p (trim s) then some (trim s) else none) = some t ↔ p t ∧ trim s = t := by
    intro p
    rw [Option.ite_none_right_eq_some, Option.some.injEq]
    constructor <;> rintro ⟨hp, rfl⟩ <;> exact ⟨hp, rfl⟩
  simp only [wordTypes, List.mem_cons, List.not_mem_nil, or_false] at htype
  rcases htype with rfl | rfl | rfl | rfl | rfl | rfl | rfl <;> exact checked

/-- A string of such a type is one of every such supertype. -/
theorem hasString_of_isSubtypeOf {s : List Char} (htarget : target ∈ wordTypes)
    (hbetween : between ∈ wordTypes) (hsub : target.isSubtypeOf between)
    (hs : target.HasString s) : between.HasString s := by
  have hcases : ∀ target ∈ wordTypes, ∀ between ∈ wordTypes, target.isSubtypeOf between →
      target = between ∨ target ∈ [.ncName, .id, .idref, .entity] ∧ between ∈ [.name, .ncName] := by
    decide
  rcases hcases target htarget between hbetween hsub with rfl | ⟨ht, hb⟩
  · exact hs
  · have hname : isNCName s := by
      simp only [List.mem_cons, List.not_mem_nil, or_false] at ht
      rcases ht with rfl | rfl | rfl | rfl <;> exact hs
    simp only [List.mem_cons, List.not_mem_nil, or_false] at hb
    rcases hb with rfl | rfl
    · exact isName_of_isNCName hname
    · exact hname

/-- A proper subtype of a string type takes texts with fewer blanks. -/
theorem stringType_cases (hsub : target.isSubtypeOf between) (hstring : between.isSubtypeOf .string) :
    target = between ∨ between = .string ∨ (between = .normalizedString ∧ target = .token) ∨
      (target ∈ wordTypes ∧
        (between = .normalizedString ∨ between = .token ∨ between ∈ wordTypes)) := by
  have key : ∀ p ∈ target.ancestry, p.isSubtypeOf .string →
      target = p ∨ p = .string ∨ (p = .normalizedString ∧ target = .token) ∨
        (target ∈ wordTypes ∧ (p = .normalizedString ∨ p = .token ∨ p ∈ wordTypes)) := by
    cases target <;> decide
  exact key between (List.contains_iff_mem.1 hsub) hstring

/-- What a string type makes of a text, it also makes of what a supertype makes of the text: that
only changes blanks, and drops some where the string type drops them too. -/
theorem readString?_by_way {s t : List Char} (hsub : target.isSubtypeOf between)
    (hstring : between.isSubtypeOf .string) (ht : readString? target s = some t) :
    ∃ u, readString? between s = some u ∧ readString? target u = some t := by
  rcases stringType_cases hsub hstring with rfl | rfl | ⟨rfl, rfl⟩ | ⟨htype, hbetween⟩
  · exact ⟨t, ht, readString?_of_hasString (readString?_hasString ht)⟩
  · exact ⟨s, rfl, ht⟩
  · have hcollapse : collapse (s.map spaced) = collapse s := by
      rw [collapse, collapse, words_map isBlank_spaced fun c => spaced_of_not_isBlank]
    exact ⟨s.map spaced, rfl, (congrArg some hcollapse).trans ht⟩
  · obtain ⟨hvalid, htrim⟩ := (readString?_word_iff htype).1 ht
    have hword := isWord_of_hasString htype hvalid
    have hsurrounds : Surrounds t s := htrim ▸ surrounds_trim (htrim ▸ hword)
    have hkept : readString? target t = some t := readString?_of_hasString hvalid
    rcases hbetween with rfl | rfl | hbetween
    · refine ⟨s.map spaced, rfl, (readString?_word_iff htype).2 ⟨hvalid, ?_⟩⟩
      exact (hsurrounds.map isBlank_spaced fun c => spaced_of_not_isBlank).trim_eq
    · exact ⟨t, congrArg some hsurrounds.collapse_eq, hkept⟩
    · have := hasString_of_isSubtypeOf htype hbetween hsub hvalid
      exact ⟨t, (readString?_word_iff hbetween).2 ⟨this, htrim⟩, hkept⟩

/-- A cast of a text to a string type gives what the type makes of the text. -/
theorem castTo_string_iff {s : String} (ha : a.InSpace) (hs : a.scalar = .string s)
    (ht : target.isSubtypeOf .string) :
    a.castTo ns target = .ok r ↔
      ∃ t, readString? target s.toList = some t ∧ r.type = target ∧
        r.scalar = .string (String.ofList t) := by
  have hlike : a.isStringLike := by rw [isStringLike, hs]
  have htext : a.text = s := by rw [text, hs]
  have hcast : a.castTo ns target = (readString? target s.toList).elim
      (.error (invalidLexical target s))
      (fun t => create (.known target) (.string (String.ofList t))) := by
    have hatomic : target.isAtomic ∧ target.isAbstract = false ∧ target ≠ .untypedAtomic ∧
        target.primitive? = some .string := by
      revert ht
      cases target <;> decide
    obtain ⟨hatomic, habstract, huntyped, hprimitive⟩ := hatomic
    simp only [castTo, hatomic, habstract, huntyped, hlike, htext, Bool.not_true,
      Bool.false_eq_true, if_false, if_true]
    split_ifs with hself hstring
    · have hvalid : target.HasString s.toList := by
        rw [InSpace, hs, hself] at ha
        exact ha
      rw [readString?_of_hasString hvalid, Option.elim_some, String.ofList_toList]
      exact (create_eq_ok_iff.2 ⟨hself, hs⟩).symm
    · subst hstring
      show _ = create (.known .string) (.string (String.ofList s.toList))
      rw [String.ofList_toList]
      rfl
    · rw [ofLexical]
      simp only [hprimitive]
      cases readString? target s.toList <;> rfl
  rw [hcast]
  cases readString? target s.toList with
  | none => simp
  | some t => simp [create_eq_ok_iff]

/-- Only texts are cast to string types other than the string type. -/
theorem exists_string_of_castTo (ht : target.isSubtypeOf .string) (hne : target ≠ .string)
    (hr : a.castTo ns target = .ok r) : ∃ s, a.scalar = .string s := by
  by_cases hself : a.type = target
  · exact (Scalar.payloads a.fits).string (hself ▸ ht)
  · have huntyped : target ≠ .untypedAtomic := by
      rintro rfl
      cases ht
    simp only [castTo, hself, huntyped, hne, ht, true_or, if_false, if_true] at hr
    split_ifs at hr with hatomic habstract hlike
    rw [isStringLike] at hlike
    split at hlike
    · next s hs => exact ⟨s, hs⟩
    · cases hlike

/-- What a string type gives is also had by way of a supertype. -/
theorem castTo_string_by_way (ha : a.InSpace) (hsub : target.isSubtypeOf between)
    (htarget : target.isSubtypeOf .string) (hbetween : between.isSubtypeOf .string)
    (hne : target ≠ .string) (hr : a.castTo ns target = .ok r) :
    ∃ w, a.castTo ns between = .ok w ∧ w.castTo ns target = .ok r := by
  obtain ⟨s, hs⟩ := exists_string_of_castTo htarget hne hr
  obtain ⟨t, ht, htype, hscalar⟩ := (castTo_string_iff ha hs htarget).1 hr
  obtain ⟨u, hu, hut⟩ := readString?_by_way hsub hbetween ht
  have hfits : (Scalar.string (String.ofList u)).fits between := by
    simp [Scalar.fits, hbetween]
  let w : Atomic := ⟨between, .string (String.ofList u), hfits⟩
  have hw : a.castTo ns between = .ok w := (castTo_string_iff ha hs hbetween).2 ⟨u, hu, rfl, rfl⟩
  refine ⟨w, hw, (castTo_string_iff (type_of_castTo ha hw).2 rfl htarget).2 ⟨t, ?_, htype, hscalar⟩⟩
  rwa [String.toList_ofList]

/-! ## Integers -/

/-- The integer that casts to integer types take from a value. -/
def whole? (a : Atomic) : Option Int :=
  match a.scalar with
  | .integer i => some i
  | .string s => readInteger? (trimString s)
  | _ => (a.toDecimal .decimal).toOption.map (·.truncate)

theorem makeInteger_eq_ok_iff {i : Int} (hi : fitsInteger i) :
    makeInteger target i = .ok r ↔
      target.HasInteger i ∧ r.type = target ∧ r.scalar = .integer i := by
  rw [hasInteger_iff, makeInteger]
  split_ifs with hrange
  · rw [create_eq_ok_iff]
    simp [hi, hrange]
  · simp [hrange]

theorem ite_makeInteger_eq_ok_iff {i : Int} {e : Error} :
    (if fitsInteger i then makeInteger target i else .error e) = .ok r ↔
      target.HasInteger i ∧ r.type = target ∧ r.scalar = .integer i := by
  split_ifs with hi
  · exact makeInteger_eq_ok_iff hi
  · simp [hasInteger_iff, hi]

/-- The target shows in the error only. -/
theorem toDecimal_ok_iff {d : Number.Decimal} :
    a.toDecimal target = .ok d ↔ (a.toDecimal .decimal).toOption = some d := by
  unfold toDecimal
  split <;> try simp [Except.toOption]
  all_goals
    split <;> simp

theorem ofLexical_integer_iff {s : String} (ht : target.isSubtypeOf .integer) :
    ofLexical ns target s = .ok r ↔
      ∃ i, readInteger? (trimString s) = some i ∧ target.HasInteger i ∧ r.type = target ∧
        r.scalar = .integer i := by
  have hprimitive := (ItemType.isParsed_integer ht).2
  rw [ofLexical]
  simp only [hprimitive]
  cases readInteger? (trimString s) with
  | none => simp
  | some i => simpa using ite_makeInteger_eq_ok_iff

/-- Numbers and booleans that are no integers are truncated as decimals. -/
theorem truncated_iff {out : Number.Decimal → Error} :
    ((a.toDecimal target).bind fun d =>
        if fitsInteger d.trunc.truncate then makeInteger target d.trunc.truncate
        else .error (out d)) = .ok r ↔
      ∃ i, (a.toDecimal .decimal).toOption.map (·.truncate) = some i ∧ target.HasInteger i ∧
        r.type = target ∧ r.scalar = .integer i := by
  cases hd : a.toDecimal target with
  | error e =>
    have hnone : (a.toDecimal .decimal).toOption = none :=
      Option.eq_none_iff_forall_ne_some.2 fun d h => by
        rw [toDecimal_ok_iff.2 h] at hd
        cases hd
    rw [hnone]
    simp [Except.bind]
  | ok d =>
    rw [toDecimal_ok_iff.1 hd]
    simp only [Except.bind, ite_makeInteger_eq_ok_iff, Number.Decimal.truncate_trunc]
    simp

theorem convert_integer_iff (ha : a.InSpace) (ht : target.isSubtypeOf .integer)
    (hlike : a.isStringLike = false) :
    a.convert target = .ok r ↔
      ∃ i, a.whole? = some i ∧ target.HasInteger i ∧ r.type = target ∧ r.scalar = .integer i := by
  have hprimitive := (ItemType.isParsed_integer ht).2
  obtain ⟨type, scalar, hfits⟩ := a
  unfold convert
  simp only [hprimitive]
  cases scalar with
  | integer i =>
    have hcapacity : fitsInteger i := (hasInteger_iff.1 ha).1
    simpa [whole?] using makeInteger_eq_ok_iff hcapacity
  | string s => cases hlike
  | _ => exact truncated_iff

/-- A cast to an integer type gives the same integer whatever the type. -/
theorem castTo_integer_iff (ha : a.InSpace) (ht : target.isSubtypeOf .integer) :
    a.castTo ns target = .ok r ↔
      ∃ i, a.whole? = some i ∧ target.HasInteger i ∧ r.type = target ∧ r.scalar = .integer i := by
  rw [castTo_of_isParsed (ItemType.isParsed_integer ht).1]
  split_ifs with hself hlike
  · obtain ⟨i, hi⟩ := (Scalar.payloads a.fits).integer (hself ▸ ht)
    have hvalid : target.HasInteger i := by
      rw [InSpace, hi, hself] at ha
      exact ha
    rw [ok_eq_ok_iff, whole?, hi, hself]
    simp [hvalid]
  · obtain ⟨type, scalar, hfits⟩ := a
    cases scalar with
    | string s => exact ofLexical_integer_iff ht
    | _ => cases hlike
  · exact convert_integer_iff ha ht (Bool.eq_false_iff.2 hlike)

/-- A value with an integer has a decimal with that integer part. -/
theorem castTo_decimal_of_whole {i : Int} (hi : a.whole? = some i) (hlt : i.natAbs < coefficientLimit) :
    ∃ d, a.castTo ns .decimal = .ok (decimal d) ∧ d.truncate = i := by
  have hvalue : ∀ b : Atomic, (b.toDecimal .decimal).toOption.map (·.truncate) = some i →
      ∃ d, (b.toDecimal .decimal).map decimal = .ok (decimal d) ∧ d.truncate = i := by
    intro b hb
    obtain ⟨d, hd, hi⟩ := Option.map_eq_some_iff.1 hb
    exact ⟨d, congrArg (Except.map decimal) (toDecimal_ok_iff.2 hd), hi⟩
  rw [castTo_of_isParsed (by decide)]
  obtain ⟨type, scalar, hfits⟩ := a
  by_cases hself : type = .decimal
  · subst hself
    obtain ⟨d, rfl⟩ := (Scalar.payloads hfits).decimal rfl
    exact ⟨d, if_pos rfl, Option.some.inj hi⟩
  · rw [if_neg hself]
    cases scalar with
    | string s =>
      obtain ⟨d, hd, htruncate⟩ := Number.Decimal.read_integer hi hlt
      refine ⟨d, ?_, htruncate⟩
      show ofLexical ns .decimal s = _
      rw [ofLexical]
      simp only [show ItemType.decimal.primitive? = some .decimal by decide, hd]
    | integer j =>
      obtain rfl : j = i := Option.some.inj hi
      exact ⟨.ofInt j, rfl, Number.Decimal.truncate_ofInt hlt⟩
    | _ => exact hvalue ⟨type, _, hfits⟩ hi

theorem integerInRange_parent {p : ItemType} {i : Int} (hp : type.parent = some p)
    (hi : integerInRange type i) : integerInRange p i := by
  cases type <;> cases hp <;>
    simp only [integerInRange, Bool.and_eq_true, decide_eq_true_eq] at hi ⊢ <;> omega

/-- The integers of a type are integers of its supertypes. -/
theorem hasInteger_of_isSubtypeOf {i : Int} (hsub : target.isSubtypeOf between)
    (hi : target.HasInteger i) : between.HasInteger i := by
  have key : ∀ (n : Nat) (t : ItemType), between ∈ ItemType.lineage n t → integerInRange t i →
      integerInRange between i := by
    intro n
    induction n with
    | zero =>
      intro t hmem hrange
      exact List.mem_singleton.1 hmem ▸ hrange
    | succ n ih =>
      intro t hmem hrange
      rcases List.mem_cons.1 hmem with rfl | hmem
      · exact hrange
      · cases hp : t.parent with
        | none => simp [hp] at hmem
        | some p =>
          rw [hp] at hmem
          exact ih p hmem (integerInRange_parent hp hrange)
  obtain ⟨hfits, hrange⟩ := hasInteger_iff.1 hi
  exact hasInteger_iff.2 ⟨hfits, key _ target (List.contains_iff_mem.1 hsub) hrange⟩

/-- What an integer type gives is also had by way of a wider integer type and of decimals. -/
theorem castTo_integer_by_way (ha : a.InSpace) (hsub : target.isSubtypeOf between)
    (htarget : target.isSubtypeOf .integer)
    (hbetween : between.isSubtypeOf .integer ∨ between = .decimal)
    (hr : a.castTo ns target = .ok r) :
    ∃ w, a.castTo ns between = .ok w ∧ w.castTo ns target = .ok r := by
  obtain ⟨i, hi, hvalid, htype, hscalar⟩ := (castTo_integer_iff ha htarget).1 hr
  have onward : ∀ {w : Atomic}, a.castTo ns between = .ok w → w.whole? = some i →
      w.castTo ns target = .ok r := fun hw hwhole =>
    (castTo_integer_iff (type_of_castTo ha hw).2 htarget).2 ⟨i, hwhole, hvalid, htype, hscalar⟩
  rcases hbetween with hbetween | rfl
  · let w : Atomic := ⟨between, .integer i, hbetween⟩
    have hw : a.castTo ns between = .ok w := (castTo_integer_iff ha hbetween).2
      ⟨i, hi, hasInteger_of_isSubtypeOf hsub hvalid, rfl, rfl⟩
    exact ⟨w, hw, onward hw rfl⟩
  · have hlt : i.natAbs < coefficientLimit := by
      have hlimit : coefficientLimit = 2 ^ 96 := rfl
      have := hvalid.capacity
      omega
    obtain ⟨d, hd, htruncate⟩ := castTo_decimal_of_whole hi hlt
    exact ⟨decimal d, hd, onward hd (congrArg some htruncate)⟩

/-! ## Durations -/

/-- The part of a duration that a duration type has. -/
def partOf (type : ItemType) (d : Duration) : Duration :=
  match type with
  | .yearMonthDuration => ⟨d.months, .zero⟩
  | .dayTimeDuration => ⟨0, d.seconds⟩
  | _ => d

/-- The same type, text and payload, as hosts see values; the seconds of durations are compared as
numbers. -/
structure SameValue (a b : Atomic) : Prop where
  type : a.type = b.type
  text : a.text = b.text
  payload : a.scalar = b.scalar ∨ samePayload a.scalar b.scalar

/-- A duration of a type is the part of itself that the type has. -/
theorem samePayload_partOf {d : Duration} (hd : d.InSpace type) :
    samePayload (.duration (partOf type d)) (.duration d) := by
  have hself : ∀ x : Number.Decimal, x.equal x := fun x => decide_eq_true rfl
  rw [samePayload, Bool.and_eq_true, decide_eq_true_iff]
  cases type with
  | yearMonthDuration =>
    have hzero : Number.Decimal.zero.units = d.seconds.units :=
      (Number.Decimal.units_eq_zero rfl).trans (Number.Decimal.units_eq_zero (hd.yearMonth rfl)).symm
    exact ⟨rfl, decide_eq_true hzero⟩
  | dayTimeDuration => exact ⟨(hd.dayTime rfl).symm, hself d.seconds⟩
  | _ => exact ⟨rfl, hself d.seconds⟩

theorem text_partOf {d : Duration} (hd : d.InSpace type) :
    (partOf type d).text type = d.text type := by
  cases type with
  | yearMonthDuration => exact (Duration.text_of_isZero _ (hd.yearMonth rfl)).symm
  | dayTimeDuration =>
    show (⟨0, d.seconds⟩ : Duration).text _ = _
    rw [← hd.dayTime rfl]
  | _ => rfl

/-- A duration is cast to a duration type by taking its part, unless it has that type. -/
theorem castTo_of_duration (ns : Namespaces) {d : Duration} (hd : a.scalar = .duration d)
    (ht : target.isSubtypeOf .duration) :
    ∃ w, a.castTo ns target = .ok w ∧ w.type = target ∧
      ((a.type = target ∧ w.scalar = .duration d) ∨ w.scalar = .duration (partOf target d)) := by
  obtain ⟨hparsed, hprimitive⟩ := ItemType.isParsed_duration ht
  rw [castTo_of_isParsed hparsed]
  split_ifs with hself hlike
  · exact ⟨a, rfl, hself, .inl ⟨hself, hd⟩⟩
  · rw [isStringLike, hd] at hlike
    cases hlike
  · refine ⟨⟨target, .duration (partOf target d), ht⟩, ?_, rfl, .inr rfl⟩
    rw [convert]
    simp only [hprimitive, hd]
    exact create_of_fits (.duration (partOf target d)) ht

/-- A text that is read as a duration casts to it. -/
theorem castTo_of_read (ns : Namespaces) {s : String} {d : Duration} (hs : a.scalar = .string s)
    (ht : target.isSubtypeOf .duration) (hd : Duration.read target (trimString s) = .value d) :
    a.castTo ns target = .ok ⟨target, .duration d, ht⟩ := by
  have hself : a.type ≠ target := by
    rintro rfl
    obtain ⟨d, hd⟩ := (Scalar.payloads a.fits).duration ht
    rw [hs] at hd
    cases hd
  have hlike : a.isStringLike := by rw [isStringLike, hs]
  have htext : a.text = s := by rw [text, hs]
  have hparse : Duration.parse target (String.ofList (trimString s)) = .ok d := by
    rw [Duration.parse, String.toList_ofList, hd]
  rw [castTo_of_isParsed (ItemType.isParsed_duration ht).1, if_neg hself, if_pos hlike, htext,
    ofLexical_duration ht, hparse]
  exact create_of_fits (.duration d) ht

/-- Other values than durations are not converted to durations. -/
theorem duration_of_convert (ht : target.isSubtypeOf .duration) (hr : a.convert target = .ok r) :
    ∃ d, a.scalar = .duration d := by
  have hprimitive := (ItemType.isParsed_duration ht).2
  obtain ⟨type, scalar, hfits⟩ := a
  rw [convert] at hr
  simp only [hprimitive] at hr
  cases scalar with
  | duration d => exact ⟨d, rfl⟩
  | temporal t =>
    have hnone : projection? type target t = none := by
      cases target <;> first | rfl | exact absurd ht (by decide)
    simp only [convertTemporal, hnone] at hr
    cases hr
  | _ => cases hr

/-- Durations come from durations and from texts that are read as such. -/
theorem castTo_duration_cases (ht : target.isSubtypeOf .duration)
    (hr : a.castTo ns target = .ok r) :
    (∃ d, a.scalar = .duration d) ∨ ∃ s d, a.scalar = .string s ∧
      Duration.read target (trimString s) = .value d ∧ r.type = target ∧ r.scalar = .duration d := by
  rw [castTo_of_isParsed (ItemType.isParsed_duration ht).1] at hr
  split_ifs at hr with hself hlike
  · exact .inl ((Scalar.payloads a.fits).duration (hself ▸ ht))
  · right
    obtain ⟨type, scalar, hfits⟩ := a
    cases scalar with
    | string s =>
      replace hr : ofLexical ns target s = .ok r := hr
      rw [ofLexical_duration ht, Duration.parse, String.toList_ofList] at hr
      cases hread : Duration.read target (trimString s) with
      | value d =>
        rw [hread] at hr
        exact ⟨s, d, rfl, hread, create_eq_ok_iff.1 hr⟩
      | malformed =>
        rw [hread] at hr
        cases hr
      | tooLarge =>
        rw [hread] at hr
        cases hr
    | _ => cases hlike
  · exact .inl (duration_of_convert ht hr)

/-- What a duration type gives is also had by way of durations. -/
theorem castTo_duration_by_way (ha : a.InSpace) (ht : target.isSubtypeOf .duration)
    (hr : a.castTo ns target = .ok r) :
    ∃ w r', a.castTo ns .duration = .ok w ∧ w.castTo ns target = .ok r' ∧ r'.SameValue r := by
  have onward : ∀ (w : Atomic) (d : Duration), w.type = .duration → w.scalar = .duration d →
      ∃ r', w.castTo ns target = .ok r' ∧ r'.type = target ∧
        r'.scalar = .duration (partOf target d) := by
    intro w d hw hd
    obtain ⟨r', hr', htype, ⟨hself, hscalar⟩ | hscalar⟩ := castTo_of_duration ns hd ht
    · obtain rfl : target = .duration := hself.symm.trans hw
      exact ⟨r', hr', htype, hscalar⟩
    · exact ⟨r', hr', htype, hscalar⟩
  have same : ∀ {r' : Atomic} {d : Duration}, r'.type = target →
      r'.scalar = .duration (partOf target d) → r.type = target → r.scalar = .duration d →
      d.InSpace target → r'.SameValue r := by
    intro r' d htype' hscalar' htype hscalar hd
    refine ⟨htype'.trans htype.symm, ?_, .inr ?_⟩
    · rw [text, text, hscalar', hscalar, htype', htype]
      exact congrArg String.ofList (text_partOf hd)
    · rw [hscalar', hscalar]
      exact samePayload_partOf hd
  rcases castTo_duration_cases ht hr with ⟨d, hd⟩ | ⟨s, d, hs, hread, htype, hscalar⟩
  · obtain ⟨w, hw, hwtype, hwscalar⟩ :=
      castTo_of_duration ns hd (ItemType.isSubtypeOf_refl .duration)
    have hwscalar : w.scalar = .duration d := hwscalar.elim And.right id
    obtain ⟨r', hr', htype', hscalar'⟩ := onward w d hwtype hwscalar
    refine ⟨w, r', hw, hr', ?_⟩
    obtain ⟨x, hx, htype, hcases⟩ := castTo_of_duration ns hd ht
    obtain rfl := Except.ok.inj (hx.symm.trans hr)
    rcases hcases with ⟨hself, hscalar⟩ | hscalar
    · refine same htype' hscalar' htype hscalar ?_
      rw [InSpace, hd, hself] at ha
      exact ha
    · have hsame := hscalar'.trans hscalar.symm
      have htypes := htype'.trans htype.symm
      exact ⟨htypes, by rw [text, text, hsame, htypes], .inl hsame⟩
  · have hw := castTo_of_read ns hs (ItemType.isSubtypeOf_refl .duration)
      (Duration.read_duration hread)
    obtain ⟨r', hr', htype', hscalar'⟩ := onward ⟨.duration, .duration d, rfl⟩ d rfl rfl
    exact ⟨_, r', hw, hr', same htype' hscalar' htype hscalar (Duration.read_inSpace hread)⟩

/-! ## Date-time stamps -/

/-- A date-time with an offset is cast to the same moment. -/
theorem castTo_dateTimeStamp_of_dateTime {w : Atomic} {t : Temporal} (hw : w.type = .dateTime)
    (ht : w.scalar = .temporal t) (hoffset : t.offset.isSome) (htype : r.type = .dateTimeStamp)
    (hr : r.scalar = .temporal t) : w.castTo ns .dateTimeStamp = .ok r := by
  have hlike : w.isStringLike = false := by rw [isStringLike, ht]
  have hself : w.type ≠ .dateTimeStamp := by
    rw [hw]
    decide
  rw [castTo_of_isParsed (by decide), if_neg hself, hlike, if_neg (by decide), convert]
  simp only [show ItemType.dateTimeStamp.primitive? = some .dateTime by decide, ht, hw]
  rw [convertTemporal, projection?]
  simp only [hoffset, and_self, if_true]
  exact create_eq_ok_iff.2 ⟨htype, hr⟩

/-- Only date-times are converted to date-time stamps. -/
theorem dateTime_of_convert (hr : a.convert .dateTimeStamp = .ok r) : a.type = .dateTime := by
  obtain ⟨type, scalar, hfits⟩ := a
  rw [convert] at hr
  simp only [show ItemType.dateTimeStamp.primitive? = some .dateTime by decide] at hr
  cases scalar with
  | temporal t =>
    simp only [convertTemporal, projection?] at hr
    split at hr
    · next hm => exact (Option.ite_none_right_eq_some.1 hm).1.1
    · cases hr
  | _ => cases hr

/-- What is a date-time stamp is also had by way of date-times. -/
theorem castTo_dateTimeStamp_by_way (ha : a.InSpace) (hr : a.castTo ns .dateTimeStamp = .ok r) :
    ∃ w, a.castTo ns .dateTime = .ok w ∧ w.castTo ns .dateTimeStamp = .ok r := by
  obtain ⟨htype, hspace⟩ := type_of_castTo ha hr
  -- It is enough that the cast to date-times gives the same moment and offset.
  suffices h : a.type = .dateTime ∨ ∃ t, r.scalar = .temporal t ∧
      a.castTo ns .dateTime = create (.known .dateTime) (.temporal t) by
    rcases h with hself | ⟨t, ht, hcast⟩
    · exact ⟨a, by rw [castTo_of_isParsed (by decide), if_pos hself], hr⟩
    · have hoffset : t.offset.isSome := by
        rw [InSpace, ht, htype] at hspace
        exact hspace.stamp rfl
      exact ⟨⟨.dateTime, .temporal t, rfl⟩, hcast,
        castTo_dateTimeStamp_of_dateTime rfl rfl hoffset htype ht⟩
  rw [castTo_of_isParsed (by decide)] at hr ⊢
  by_cases hdateTime : a.type = .dateTime
  · exact .inl hdateTime
  right
  rw [if_neg hdateTime]
  split_ifs at hr with hself hlike
  · obtain rfl := Except.ok.inj hr
    obtain ⟨t, ht⟩ := (Scalar.payloads a.fits).dateTimeStamp hself
    refine ⟨t, ht, ?_⟩
    have hlike : a.isStringLike = false := by rw [isStringLike, ht]
    rw [hlike, if_neg Bool.false_ne_true, convert]
    simp only [show ItemType.dateTime.primitive? = some .dateTime by decide, ht, hself]
    rfl
  · rw [if_pos hlike]
    rw [ofLexical_temporalType (by decide), Temporal.parse, String.toList_ofList] at hr ⊢
    cases hread : Temporal.read? .dateTimeStamp (trimString a.text) with
    | none =>
      rw [hread] at hr
      cases hr
    | some t =>
      rw [hread] at hr
      replace hr : create (.known .dateTimeStamp) (.temporal t) = .ok r := hr
      rw [Temporal.read?_dateTime hread]
      exact ⟨t, (create_eq_ok_iff.1 hr).2, rfl⟩
  · exact absurd (dateTime_of_convert hr) hdateTime

/-! ## Casts -/

/-- Going by way of a concrete supertype neither loses nor changes what a cast gives. -/
theorem castWith_by_way (ns : Namespaces) (a : Atomic) (target between : ItemType) (r : Atomic)
    (ha : a.InSpace) (hatomic : between.isAtomic) (habstract : between.isAbstract = false)
    (hsub : target.isSubtypeOf between) (hr : a.castWith ns (.known target) = .ok r) :
    ∃ w r', a.castWith ns (.known between) = .ok w ∧ w.castWith ns (.known target) = .ok r' ∧
      r'.SameValue r := by
  have hr : a.castTo ns target = .ok r := hr
  have exactly : (∃ w, a.castTo ns between = .ok w ∧ w.castTo ns target = .ok r) →
      ∃ w r', a.castTo ns between = .ok w ∧ w.castTo ns target = .ok r' ∧ r'.SameValue r :=
    fun ⟨w, hw, hwr⟩ => ⟨w, r, hw, hwr, rfl, rfl, .inl rfl⟩
  by_cases hself : target = between
  · subst hself
    refine exactly ⟨r, hr, ?_⟩
    simp [castTo, hatomic, habstract, (type_of_castTo ha hr).1]
  rcases ItemType.supertype_cases hsub hatomic habstract with
    rfl | ⟨ht, hb⟩ | ⟨ht, hb⟩ | ⟨ht, rfl⟩ | ⟨rfl, rfl⟩
  · exact absurd rfl hself
  · have hne : target ≠ .string := by
      rintro rfl
      revert hsub hb hself
      cases between <;> decide
    exact exactly (castTo_string_by_way ha hsub ht hb hne hr)
  · exact exactly (castTo_integer_by_way ha hsub ht hb hr)
  · exact castTo_duration_by_way ha ht hr
  · exact exactly (castTo_dateTimeStamp_by_way ha hr)

/-- A byte with a plus sign by way of decimals, and negative months by way of durations, where the
zero of the seconds has no sign. -/
theorem castWith_by_way_signed :
    (∃ w r', (untyped " +007\n").castWith .minimal (.known .decimal) = .ok w ∧
      w.castWith .minimal (.known .unsignedByte) = .ok r' ∧
      r'.SameValue ⟨.unsignedByte, .integer 7, by decide⟩) ∧
    ∃ w r', (untyped "-P1Y").castWith .minimal (.known .duration) = .ok w ∧
      w.castWith .minimal (.known .yearMonthDuration) = .ok r' ∧
      r'.SameValue ⟨.yearMonthDuration, .duration ⟨-12, -.zero⟩, by decide⟩ :=
  ⟨castWith_by_way .minimal (untyped " +007\n") .unsignedByte .decimal _ trivial (by decide)
      (by decide) (by decide) (by decide +kernel),
    castWith_by_way .minimal (untyped "-P1Y") .yearMonthDuration .duration _ trivial (by decide)
      (by decide) (by decide) (by decide +kernel)⟩

end Atomic

end XPath
