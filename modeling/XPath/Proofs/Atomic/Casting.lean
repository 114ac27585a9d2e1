import XPath.Proofs.Atomic.ValueSpace
import XPath.Proofs.Time.TemporalText

/-!
# What casts give

A cast of a value in the value space of its type gives a value in the value space of the target, or
fails with an error of casting (`Atomic.castWith_inSpace`). The result comes about by one of three
routes: the value itself, a lexical form that is read (`lands_ofLexical`), or a conversion
(`lands_convert`).
-/

namespace XPath

open Number Text Time

variable {ns : Namespaces} {target type : ItemType}

/-! ## Dates and times -/

namespace Time

theorem Date.isValid_first (year : Int) {month : Nat} (h : 1 ≤ month) (h' : month ≤ 12) :
    (⟨year, month, 1⟩ : Date).isValid :=
  Date.isValid_iff.2 ⟨h, h', le_rfl, Nat.le_trans (by decide) (daysInMonth_pos year month)⟩

/-- The reference year is a leap year. -/
theorem daysInMonth_le_reference (year : Int) (month : Nat) :
    daysInMonth year month ≤ daysInMonth referenceYear month := by
  unfold daysInMonth
  split
  · split <;> decide
  all_goals exact le_rfl

/-- A projection of a date or time of the calendar is one of the calendar. -/
theorem projection?_isValid {source : ItemType} {t : Temporal} {m : Moment}
    (hdate : t.moment.date.isValid ∧ t.moment.date.inRange) (htime : t.moment.time.IsValid)
    (hm : Atomic.projection? source target t = some m) :
    (m.date.isValid ∧ m.date.inRange) ∧ m.time.IsValid := by
  obtain ⟨hvalid, hrange⟩ := hdate
  obtain ⟨hmonth, hmonth', hday, hday'⟩ := Date.isValid_iff.1 hvalid
  have hreference := daysInMonth_le_reference t.moment.date.year t.moment.date.month
  have hdays : daysInMonth referenceYear t.moment.date.month ≤ daysInMonth referenceYear 12 := by
    unfold daysInMonth
    split <;> decide
  have midnight : ∀ {d : Date}, d.isValid → d.inRange →
      (d.isValid ∧ d.inRange) ∧ TimeOfDay.midnight.IsValid :=
    fun hd hr => ⟨⟨hd, hr⟩, TimeOfDay.isValid_midnight⟩
  rw [Atomic.projection?.eq_def] at hm
  cases target <;> dsimp only at hm <;> try cases hm
  all_goals
    obtain ⟨-, hm⟩ := Option.ite_none_right_eq_some.1 hm
    cases hm
  case dateTime | dateTimeStamp => exact ⟨⟨hvalid, hrange⟩, htime⟩
  case date => exact midnight hvalid hrange
  case time => exact ⟨⟨rfl, rfl⟩, htime⟩
  case gYearMonth => exact midnight (Date.isValid_first _ hmonth hmonth') hrange
  case gYear => exact midnight (Date.isValid_first _ le_rfl (by decide)) hrange
  case gMonth => exact midnight (Date.isValid_first _ hmonth hmonth') rfl
  case gMonthDay =>
    exact midnight (Date.isValid_iff.2 ⟨hmonth, hmonth', hday, hday'.trans hreference⟩) rfl
  case gDay =>
    have hmost := hday'.trans (hreference.trans hdays)
    exact midnight (Date.isValid_iff.2 ⟨by decide, le_rfl, hday, hmost⟩) rfl

/-- A projection of a date or time is a moment of the target. -/
theorem projection?_isMoment {source : ItemType} {t : Temporal} {m : Moment}
    (ht : t.InSpace source) (hm : Atomic.projection? source target t = some m) :
    IsMoment target m ∧ (target = .dateTimeStamp → t.offset.isSome) := by
  obtain ⟨hdate, htime⟩ := projection?_isValid ht.date ht.time hm
  suffices h : HasReferences target m ∧ (target = .dateTimeStamp → t.offset.isSome) from
    ⟨⟨hdate, htime, h.1⟩, h.2⟩
  rw [Atomic.projection?.eq_def] at hm
  cases target <;> dsimp only at hm <;> try cases hm
  all_goals
    obtain ⟨hsource, hm⟩ := Option.ite_none_right_eq_some.1 hm
    cases hm
  case dateTimeStamp => exact ⟨trivial, fun _ => hsource.2⟩
  all_goals exact ⟨by simp [HasReferences, referenceYear], by simp⟩

end Time

namespace Atomic

/-- An error that casts to a type raise. -/
def IsCastError (target : ItemType) (e : Error) : Prop :=
  e.code ∈ [.XPTY0004, .FORG0001, .FOCA0002] ∨ (e.code = .FONS0004 ∧ target = .qName)

/-- The outcome is a value of the target type, or an error that casts to it raise. -/
inductive Lands (target : ItemType) : Except Error Atomic → Prop where
  | ok {b : Atomic} (htype : b.type = target) (hb : b.InSpace) : Lands target (.ok b)
  | error {e : Error} (he : IsCastError target e) : Lands target (.error e)

theorem Lands.typeError (message : String) : Lands target (.error (.typeError message)) :=
  .error (.inl (by simp [Error.typeError]))

theorem Lands.invalid (text : String) : Lands target (.error (invalidLexical target text)) :=
  .error (.inl (by simp [invalidLexical]))

theorem Lands.create (scalar : Scalar) (hs : scalar.InSpace target) :
    Lands target (create (.known target) scalar) := by
  rw [Atomic.create, ofScalar?]
  by_cases h : scalar.fits target = true
  · rw [dif_pos h]
    exact .ok rfl hs
  · rw [dif_neg h]
    exact .typeError _

theorem Lands.makeInteger {i : Int} (hi : fitsInteger i) : Lands target (makeInteger target i) := by
  rw [Atomic.makeInteger]
  split
  case isTrue h => exact Lands.create _ (hasInteger_iff.2 ⟨hi, h⟩)
  case isFalse => exact Lands.invalid _

/-! ## Lexical forms -/

theorem readBinary?_inFormat {f : Format} (hf : f.IsProper) {s : List Char} {x : Binary f}
    (hx : readBinary? f s = some x) : x.InFormat := by
  rw [readBinary?] at hx
  split_ifs at hx
  · cases hx; trivial
  · cases hx; trivial
  · cases hx; trivial
  · exact readScientific?_inFormat hf hx

/-- The local part of a qualified name is checked; the qualifier need not be bound. -/
theorem resolve_spec (ns : Namespaces) (lexical : String) :
    (∀ q, QName.resolve ns lexical = .ok q → isNCName q.localName.toList) ∧
    ∀ e, QName.resolve ns lexical = .error e → e.code = .FORG0001 ∨ e.code = .FONS0004 := by
  rw [QName.resolve, QName.resolveBy]
  cases cutAt ':' (collapse lexical.toList) with
  | none =>
    simp only [Option.map_none, Option.getD_none, Bool.or_false]
    split
    case isTrue =>
      refine ⟨fun q hq => (nomatch hq), fun e he => ?_⟩
      cases he
      exact .inl rfl
    case isFalse hname =>
      refine ⟨fun q hq => ?_, fun e he => nomatch he⟩
      cases hq
      rw [String.toList_ofList]
      simpa using hname
  | some parts =>
    simp only [Option.map_some, Option.getD_some]
    split
    case isTrue =>
      refine ⟨fun q hq => (nomatch hq), fun e he => ?_⟩
      cases he
      exact .inl rfl
    case isFalse hnames =>
      split
      · refine ⟨fun q hq => ?_, fun e he => nomatch he⟩
        cases hq
        rw [String.toList_ofList]
        simp only [Bool.or_eq_true, Bool.not_eq_true', not_or, Bool.not_eq_false] at hnames
        exact hnames.1
      · refine ⟨fun q hq => (nomatch hq), fun e he => ?_⟩
        cases he
        exact .inr rfl

/-- The types below which there are no others are their own primitive types. -/
theorem eq_of_primitive? (target : ItemType) :
    ∀ p ∈ [ItemType.anyUri, .boolean, .decimal, .double, .float, .qName],
      target.primitive? = some p → target = p := by
  cases target <;> decide

theorem isSubtypeOf_of_primitive? (hp : target.primitive? = some .duration) :
    target.isSubtypeOf .duration := by
  revert hp
  cases target <;> decide

theorem lands_parseDuration {text : String} (hfit : Duration.read target text.toList ≠ .tooLarge) :
    Lands target (do create (.known target) (.duration (← Duration.parse target text))) := by
  rw [Duration.parse]
  cases hread : Duration.read target text.toList with
  | value d => exact Lands.create (.duration d) (Duration.read_inSpace hread)
  | malformed => exact .error (.inl (by simp [malformed]))
  | tooLarge => exact absurd hread hfit

theorem lands_parseTemporal {text : String} :
    Lands target (do create (.known target) (.temporal (← Temporal.parse target text))) := by
  rw [Temporal.parse]
  cases hread : Temporal.read? target text.toList with
  | none => exact .error (.inl (by simp [malformed]))
  | some t => exact Lands.create (.temporal t) (Temporal.read?_inSpace hread)

theorem lands_ofLexical {raw : String}
    (hfit : target.isSubtypeOf .duration → Duration.read target (trimString raw) ≠ .tooLarge) :
    Lands target (ofLexical ns target raw) := by
  rw [ofLexical]
  cases hp : target.primitive? with
  | none => exact .typeError _
  | some p =>
    have hleaf := fun h => eq_of_primitive? target p h hp
    cases p
    case string =>
      simp only
      cases hs : readString? target raw.toList with
      | none => exact .invalid _
      | some s =>
        refine .create (.string (String.ofList s)) ?_
        show target.HasString (String.ofList s).toList
        rw [String.toList_ofList]
        exact readString?_hasString hs
    case anyUri =>
      obtain rfl := hleaf (by decide)
      exact .ok rfl trivial
    case boolean =>
      obtain rfl := hleaf (by decide)
      simp only
      split_ifs
      · exact .ok rfl trivial
      · exact .ok rfl trivial
      · exact .invalid _
    case decimal =>
      obtain rfl := hleaf (by decide)
      simp only
      cases (Numeral.read? (trimString raw)).bind Number.Decimal.ofNumeral? with
      | none => exact .invalid _
      | some d => exact .ok rfl trivial
    case integer =>
      simp only
      cases readInteger? (trimString raw) with
      | none => exact .invalid _
      | some i =>
        simp only
        split
        case isTrue h => exact .makeInteger h
        case isFalse => exact .invalid _
    case double =>
      obtain rfl := hleaf (by decide)
      simp only
      cases hd : readDouble? (trimString raw) with
      | none => exact .invalid _
      | some d => exact .ok rfl (readBinary?_inFormat Format.isProper_binary64 hd)
    case float =>
      obtain rfl := hleaf (by decide)
      simp only
      cases readDouble? (trimString raw) with
      | none => exact .invalid _
      | some d => exact .ok rfl (Double.inFormat_narrow d)
    case qName =>
      obtain rfl := hleaf (by decide)
      simp only
      cases hq : QName.resolve ns (String.ofList (trimString raw)) with
      | error e =>
        rcases (resolve_spec ..).2 e hq with he | he
        · exact .error (.inl (by simp [he]))
        · exact .error (.inr ⟨he, rfl⟩)
      | ok q => exact .ok rfl ((resolve_spec ..).1 q hq)
    case duration =>
      refine lands_parseDuration ?_
      rw [String.toList_ofList]
      exact hfit (isSubtypeOf_of_primitive? hp)
    case hexBinary =>
      simp only
      cases readHex? (trimString raw) with
      | none => exact .invalid _
      | some octets => exact .create (.binary octets) trivial
    case base64Binary =>
      simp only
      cases readBase64? ((trimString raw).filter (!isBlank ·)) with
      | none => exact .invalid _
      | some octets => exact .create (.binary octets) trivial
    all_goals exact lands_parseTemporal

/-! ## Conversions -/

variable {a : Atomic}

theorem toDouble?_inFormat {d : Double} (ha : a.InSpace) (hd : a.toDouble? = some d) :
    d.InFormat := by
  obtain ⟨type, scalar, hfits⟩ := a
  have hproper := Format.isProper_binary64
  cases scalar with
  | boolean b => exact Option.some.inj hd ▸ Binary.inFormat_ofInt hproper _
  | integer i => exact Option.some.inj hd ▸ Binary.inFormat_ofInt hproper _
  | decimal x => exact Option.some.inj hd ▸ x.inFormat_toDouble
  | float f => exact Option.some.inj hd ▸ f.inFormat_widen
  | double x => exact Option.some.inj hd ▸ ha
  | _ => cases hd

theorem toDecimal_code {e : Error} (he : a.toDecimal target = .error e) : IsCastError target e := by
  rw [toDecimal] at he
  split at he
  case h_1 | h_2 | h_3 => cases he
  case h_4 | h_5 =>
    simp only at he
    split at he
    · cases he
    · cases he
      exact .inl (by simp [nonFinite])
  case h_6 =>
    cases he
    exact .inl (by simp [notCastable, Error.typeError])

/-- The part of a duration that a type has. -/
theorem part_inSpace {d : Duration} (hd : d.InSpace type) (htarget : target.isSubtypeOf .duration) :
    (match target with
      | .yearMonthDuration => (⟨d.months, .zero⟩ : Duration)
      | .dayTimeDuration => ⟨0, d.seconds⟩
      | _ => d).InSpace target := by
  cases target <;> try exact absurd htarget (by decide)
  case duration => exact ⟨hd.months, hd.sameSign, nofun, nofun⟩
  case yearMonthDuration =>
    have hzero : Number.Decimal.zero.units = 0 := Number.Decimal.units_eq_zero rfl
    refine ⟨hd.months, ?_, fun _ => rfl, nofun⟩
    rcases le_total 0 d.months with h | h
    · exact .inl ⟨h, hzero.ge⟩
    · exact .inr ⟨h, hzero.le⟩
  case dayTimeDuration =>
    refine ⟨⟨Int.neg_nonpos_of_nonneg (by decide), by norm_num⟩, ?_, nofun, fun _ => rfl⟩
    rcases le_total 0 d.seconds.units with h | h
    · exact .inl ⟨le_rfl, h⟩
    · exact .inr ⟨le_rfl, h⟩

theorem lands_convert (ha : a.InSpace) : Lands target (a.convert target) := by
  have hspace : a.scalar.InSpace a.type := ha
  have hleaf := eq_of_primitive? target
  unfold convert
  simp only
  split
  case h_1 => exact .typeError _
  case h_2 hp _ | h_3 hp _ | h_4 hp _ | h_5 hp _ =>
    exact .ok (hleaf .boolean (by decide) hp).symm trivial
  case h_6 hp =>
    obtain rfl := hleaf .double (by decide) hp
    cases hd : a.toDouble? with
    | none => exact .typeError _
    | some d => exact .ok rfl (toDouble?_inFormat ha hd)
  case h_7 hp =>
    obtain rfl := hleaf .float (by decide) hp
    cases hd : a.toDouble? with
    | none => exact .typeError _
    | some d => exact .ok rfl (Double.inFormat_narrow d)
  case h_8 hp =>
    obtain rfl := hleaf .decimal (by decide) hp
    cases hd : a.toDecimal .decimal with
    | error e => exact .error (toDecimal_code hd)
    | ok d => exact .ok rfl trivial
  case h_9 i _ hi =>
    rw [hi] at hspace
    exact .makeInteger (hasInteger_iff.1 hspace).1
  case h_10 =>
    cases hd : a.toDecimal target with
    | error e => exact .error (toDecimal_code hd)
    | ok d =>
      show Lands target (if fitsInteger d.trunc.truncate then makeInteger target d.trunc.truncate
        else .error _)
      split
      case isTrue h => exact .makeInteger h
      case isFalse => exact .error (.inl (by simp))
  case h_11 d hp hd =>
    rw [hd] at hspace
    exact .create (.duration _) (part_inSpace hspace (isSubtypeOf_of_primitive? hp))
  case h_12 octets _ _ | h_13 octets _ _ => exact .create (.binary octets) trivial
  case h_14 _ t _ _ _ _ _ ht =>
    rw [ht] at hspace
    rw [convertTemporal]
    split
    case h_1 m hm =>
      obtain ⟨hmoment, hstamp⟩ := projection?_isMoment hspace hm
      exact .create (.temporal ⟨m, t.offset⟩)
        ⟨hmoment.date, hmoment.time, hspace.offset, hstamp, hmoment.references⟩
    case h_2 => exact .typeError _
  case h_15 => exact .typeError _

/-! ## Casts -/

theorem lands_castTo (ha : a.InSpace)
    (hfit : target.isSubtypeOf .duration → a.isStringLike →
      Duration.read target (trimString a.text) ≠ .tooLarge) :
    Lands target (a.castTo ns target) := by
  rw [castTo]
  split_ifs with hatomic habstract hself huntyped hstring hlike hsub
  · exact .typeError _
  · exact .typeError _
  · exact .ok hself ha
  · exact .ok huntyped.symm trivial
  · exact .ok hstring.symm trivial
  · exact lands_ofLexical fun h => hfit h hlike
  · exact .typeError _
  · exact lands_convert ha

/-- A cast of a value in the value space of its type to any type gives a value of exactly that type,
in its value space, or fails as casts do; only casts to qualified names look for a namespace. The
text of a duration must not have more seconds than a decimal holds. -/
theorem castWith_inSpace (ns : Namespaces) (a : Atomic) (target : TypeName) (ha : a.InSpace)
    (hfit : ∀ t, target = .known t → t.isSubtypeOf .duration → a.isStringLike →
      Duration.read t (trimString a.text) ≠ .tooLarge) :
    (∀ b, a.castWith ns target = .ok b → target = .known b.type ∧ b.InSpace) ∧
    ∀ e, a.castWith ns target = .error e →
      e.code ∈ [.XPTY0004, .FORG0001, .FOCA0002] ∨ (e.code = .FONS0004 ∧ target = .known .qName) := by
  cases target with
  | unknown text =>
    refine ⟨fun b hb => (nomatch hb), fun e he => ?_⟩
    cases he
    exact .inl (by simp [notAtomic, Error.typeError])
  | known t =>
    have hlands : Lands t (a.castTo ns t) := lands_castTo ha (hfit t rfl)
    constructor
    · intro b hb
      have hb : a.castTo ns t = .ok b := hb
      rw [hb] at hlands
      cases hlands with
      | ok htype hspace => exact ⟨congrArg TypeName.known htype.symm, hspace⟩
    · intro e he
      have he : a.castTo ns t = .error e := he
      rw [he] at hlands
      cases hlands with
      | error he => exact he.imp_right fun h => ⟨h.1, congrArg TypeName.known h.2⟩

/-- A text with a negative duration, cast to a type that has no months. -/
theorem castWith_inSpace_dayTime :
    ∃ b, (untyped " -P1DT12H1.50S ").castWith .minimal (.known .dayTimeDuration) = .ok b ∧
      b.scalar = .duration ⟨0, ⟨true, 12960150, 2, by decide, by decide⟩⟩ ∧
      b.type = .dayTimeDuration ∧ b.InSpace := by
  have hcast : (untyped " -P1DT12H1.50S ").castWith .minimal (.known .dayTimeDuration) =
      .ok ⟨.dayTimeDuration, .duration ⟨0, ⟨true, 12960150, 2, by decide, by decide⟩⟩, by decide⟩ := by
    decide +kernel
  have hlands := castWith_inSpace .minimal (untyped " -P1DT12H1.50S ") (.known .dayTimeDuration)
    trivial fun t ht _ _ => by cases ht; decide +kernel
  obtain ⟨-, hspace⟩ := hlands.1 _ hcast
  exact ⟨_, hcast, rfl, rfl, hspace⟩

/-- A time is not on the first day of a month, and a duration may have too many seconds to be read or
refused. -/
theorem castWith_time_lastDay :
    (∃ b t, (untyped "00:00:00").castWith .minimal (.known .time) = .ok b ∧
      b.scalar = .temporal t ∧ t.moment.date.day ≠ 1) ∧
    ∃ e, (untyped "P1DT79228162514264337593543950335S").castWith .minimal (.known .duration) =
      .error e ∧ e.code ∉ [.XPTY0004, .FORG0001, .FOCA0002, .FONS0004] := by
  refine ⟨⟨⟨.time, .temporal ⟨⟨⟨1972, 12, 31⟩, .midnight⟩, none⟩, rfl⟩, _, ?_, rfl, by decide⟩,
    Duration.overflow, ?_, by decide⟩
  · decide +kernel
  · decide +kernel

end Atomic

end XPath
