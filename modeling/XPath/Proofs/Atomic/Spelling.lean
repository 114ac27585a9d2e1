import XPath.Proofs.Atomic.Coherence
import XPath.Proofs.Atomic.Ordering

/-!
# Untyped operands

An untyped operand is cast to the primitive type of its partner. Beside a value of the type that it
was written from it compares like the value that it spells (`Atomic.generalCompare_untyped_text`),
for every family with texts that are read back: the text types, booleans, dates and times, octets
and durations. Below the primitive types a comparison tells only duration types apart: durations of
years and months are ordered, and so are those of days and times, but an untyped operand beside them
becomes a plain duration, which has no order (`Atomic.generalCompare_untyped_months`).
-/

namespace XPath

open Number Text Time

/-- The concrete types whose values are spelled by their texts: all but the numeric ones, beside
which an untyped value is a double, and names, whose texts lack the namespace. -/
def ItemType.isSpelled (t : ItemType) : Bool :=
  t.isAtomic && !t.isAbstract && !t.isSubtypeOf .numeric && t != .qName

namespace Atomic

variable {op : Relation} {a b x y : Atomic} {e : Bool} {s : String}

/-! ## Substitutes -/

/-- The value `b` compares with `y` as `x` does, on either side. -/
structure StandsFor (op : Relation) (b x y : Atomic) : Prop where
  left : compare b y op.isEquality = compare x y op.isEquality
  right : compare y b op.isEquality = compare y x op.isEquality

/-- An untyped operand compares as what it is cast to. -/
theorem related_of_standsFor (hx : x.isUntyped = false) (hy : y.isUntyped = false)
    (hcast : (untyped s).cast (partnerType y) = .ok b) (hb : StandsFor op b x y) :
    related op (untyped s) y = related op x y ∧ related op y (untyped s) = related op y x := by
  have huntyped : (untyped s).isUntyped = true := rfl
  have hleft : harmonize (untyped s) y = .ok (b, y) := by
    rw [harmonize, huntyped, hy]
    simp only [hcast]
    rfl
  have hright : harmonize y (untyped s) = .ok (y, b) := harmonize_swap hleft
  have hxy : harmonize x y = .ok (x, y) := by rw [harmonize, hx, hy]
  rw [related, related, related, related, hleft, hright, hxy, harmonize_swap hxy]
  constructor
  · show (do let order ← compare b y _; _) = (do let order ← compare x y _; _)
    rw [hb.left]
  · show (do let order ← compare y b _; _) = (do let order ← compare y x _; _)
    rw [hb.right]

theorem standsFor_text (hx : x.isText) (hy : y.isText) : StandsFor op (string x.text) x y := by
  have hstring : (string x.text).string? = x.string? := by
    obtain ⟨s, hs⟩ := scalar_of_isText hx
    simp only [text, hs, string?]
    rfl
  have htext : (string x.text).isText = true := rfl
  constructor
  · rw [compare_texts htext hy, compare_texts hx hy, hstring]
  · rw [compare_texts hy htext, compare_texts hy hx, hstring]

theorem standsFor_temporal {t u : Temporal} (hb : b.scalar = .temporal t)
    (hx : x.scalar = .temporal t) (hy : y.scalar = .temporal u)
    (hbx : b.type.primitive? = x.type.primitive?) (hxy : y.type = x.type) : StandsFor op b x y := by
  have hby : b.type.primitive? = y.type.primitive? := by rw [hbx, hxy]
  constructor
  · rw [compare_temporals hb hy, compare_temporals hx hy, if_pos hby, if_pos (by rw [hxy])]
  · rw [compare_temporals hy hb, compare_temporals hy hx, if_pos hby.symm, if_pos (by rw [hxy])]

/-- Equal durations stand for each other, where their types are not told apart. -/
theorem standsFor_duration {c d d' : Duration} (hb : b.scalar = .duration d')
    (hx : x.scalar = .duration d) (hy : y.scalar = .duration c) (hmonths : d'.months = d.months)
    (hseconds : d'.seconds.equal d.seconds) (htype : b.type = x.type ∨ op.isEquality) :
    StandsFor op b x y := by
  have hunits : d'.seconds.units = d.seconds.units := of_decide_eq_true hseconds
  have hleft : d'.seconds.compare c.seconds = d.seconds.compare c.seconds := by
    rw [Decimal.compare, Decimal.compare, hunits]
  have hright : c.seconds.compare d'.seconds = c.seconds.compare d.seconds := by
    rw [Decimal.compare, Decimal.compare, hunits]
  constructor
  · rw [compare_durations hb hy, compare_durations hx hy, hmonths, hleft]
    rcases htype with htype | hop
    · rw [incomparable, incomparable, htype]
    · rw [hop, Bool.true_or, Bool.true_or, if_pos rfl, if_pos rfl]
  · rw [compare_durations hy hb, compare_durations hy hx, hmonths, hright]
    rcases htype with htype | hop
    · rw [incomparable, incomparable, htype]
    · rw [hop, Bool.true_or, Bool.true_or, if_pos rfl, if_pos rfl]

/-! ## What a text is cast to -/

theorem temporal_of_type (htype : a.type ∈ temporalTypes) : ∃ t, a.scalar = .temporal t := by
  have hfits := a.fits
  cases ha : a.scalar with
  | temporal t => exact ⟨t, rfl⟩
  | _ =>
    exfalso
    rw [ha] at hfits
    simp only [Scalar.fits] at hfits
    revert htype hfits
    cases a.type <;> decide

/-- The text of a duration is cast to an equal duration, of the plain type. -/
theorem castTo_text_duration (ns : Namespaces) {d : Duration} (hx : x.InSpace)
    (hd : x.scalar = .duration d) (hw : d.IsWritable) :
    ∃ d', (untyped x.text).castTo ns .duration = .ok ⟨.duration, .duration d', rfl⟩ ∧
      d'.months = d.months ∧ d'.seconds.equal d.seconds := by
  rw [InSpace, hd] at hx
  obtain ⟨d', hread, hmonths, hseconds⟩ := Duration.read_canonical hx hw
  have htext : trimString x.text = trim (d.text x.type) := by
    rw [text, hd, trimString, String.toList_ofList]
  have htrim : Duration.read .duration (trimString x.text) = .value d' := by
    rw [htext, Duration.read, trim_trim]
    exact Duration.read_duration hread
  exact ⟨d', castTo_of_read ns rfl rfl htrim, hmonths, hseconds⟩

theorem isNumeric_eq (a : Atomic) : a.isNumeric = a.type.isSubtypeOf .numeric := by
  have hfits := a.fits
  rw [isNumeric]
  cases ha : a.scalar <;> rw [ha] at hfits <;> simp only [Scalar.fits] at hfits ⊢ <;>
    revert hfits <;> cases a.type <;> decide

/-- Beside values that are neither texts nor numbers an untyped value takes their primitive type. -/
theorem partnerType_eq {p : ItemType} (hp : y.type.primitive? = some p)
    (htext : ¬(y.isUntyped || y.isText)) (hnumeric : y.isNumeric = false) : partnerType y = p := by
  rw [partnerType, if_neg htext, hnumeric, if_neg Bool.false_ne_true, hp]
  rfl

/-- The primitive type of a date or time has the same values with the same texts. -/
theorem exists_primitive_temporal {type : ItemType} {t : Temporal} (htype : type ∈ temporalTypes)
    (ht : t.InSpace type) :
    ∃ p ∈ temporalTypes, type.primitive? = some p ∧ p.primitive? = some p ∧ t.InSpace p ∧
      t.text p = t.text type := by
  by_cases hstamp : type = .dateTimeStamp
  · subst hstamp
    exact ⟨.dateTime, by decide, by decide, by decide,
      ⟨ht.date, ht.time, ht.offset, nofun, trivial⟩, rfl⟩
  · have hself : type.primitive? = some type := by
      revert htype hstamp
      cases type <;> decide
    exact ⟨type, htype, hself, hself, ht, rfl⟩

theorem castTo_text_temporal (ns : Namespaces) {type : ItemType} {t : Temporal}
    (htype : type ∈ temporalTypes) (ht : t.InSpace type) :
    (untyped (String.ofList (t.text type))).castTo ns type =
      .ok ⟨type, .temporal t, fits_temporal_iff.2 htype⟩ := by
  have hcast : type.isAtomic ∧ type.isAbstract = false ∧ type ≠ .untypedAtomic ∧ type ≠ .string := by
    revert htype
    cases type <;> decide
  rw [castTo_untyped hcast.1 hcast.2.1 hcast.2.2.1 hcast.2.2.2]
  exact ofLexical_temporal htype ht

/-- The text of a boolean or of octets is cast to the same value. -/
theorem castTo_text_self (ns : Namespaces) (hx : x.InSpace)
    (htype : x.type ∈ [ItemType.boolean, .hexBinary, .base64Binary]) :
    (untyped x.text).castTo ns x.type = .ok x := by
  have hcanonical : x.type.hasCanonicalText ∧ x.type ≠ .anyUri ∧ x.type ≠ .decimal := by
    revert htype
    cases x.type <;> decide
  obtain ⟨b, hb, htype', hsame⟩ : ∃ b, (untyped x.text).castTo ns x.type = .ok b ∧
      b.type = x.type ∧ b.scalar.Same x.scalar :=
    castTo_text hx hcanonical.1 fun h => absurd h hcanonical.2.1
  have hdecimal : ∀ d, x.scalar ≠ .decimal d := fun d hd => by
    have hfits := x.fits
    rw [hd] at hfits
    exact hcanonical.2.2 (of_decide_eq_true hfits)
  rw [hb]
  refine ok_eq_ok_iff.2 ⟨htype'.symm, ?_⟩
  unfold Scalar.Same at hsame
  split at hsame
  · next heq => exact absurd heq (hdecimal _)
  · exact hsame.symm

/-! ## Comparison of texts -/

theorem isSpelled_cases {type : ItemType} (htype : type.isSpelled) :
    type = .untypedAtomic ∨ (type.isSubtypeOf .string || type.isSubtypeOf .anyUri) ∨
      ((type ∈ [ItemType.boolean, .hexBinary, .base64Binary] ∨ type ∈ temporalTypes ∨
          type.isSubtypeOf .duration) ∧
        (type.isSubtypeOf .untypedAtomic || (type.isSubtypeOf .string || type.isSubtypeOf .anyUri)) =
          false) := by
  revert htype
  cases type <;> decide

theorem untyped_text (hx : x.isUntyped) : untyped x.text = x := by
  obtain ⟨type, scalar, hfits⟩ := x
  obtain rfl : type = .untypedAtomic := by
    replace hx : type.isSubtypeOf .untypedAtomic := hx
    revert hx
    cases type <;> decide
  cases scalar with
  | string s => rfl
  | _ => exact absurd hfits (by simp only [Scalar.fits]; decide)

/-- What the text of a value is cast to beside another value of its type stands for the value, if
it is no duration, or one whose text is exact and whose type is not told apart from the plain
type. -/
theorem exists_substitute (hx : x.InSpace) (htype : x.type.isSpelled) (huntyped : x.isUntyped = false)
    (hy : y.type = x.type)
    (hduration : ∀ d, x.scalar = .duration d →
      d.IsWritable ∧ (x.type = .duration ∨ op.isEquality)) :
    ∃ b, (untyped x.text).cast (partnerType y) = .ok b ∧ StandsFor op b x y := by
  have hnumeric : y.isNumeric = false := by
    rw [isNumeric_eq, hy]
    revert htype
    cases x.type <;> decide
  rcases isSpelled_cases htype with hself | htext | ⟨hfamily, hneither⟩
  · rw [isUntyped, isInstanceOf, hself] at huntyped
    cases huntyped
  · have hytext : y.isText := by
      rw [isText, isInstanceOf, isInstanceOf, hy]
      exact htext
    have hpartner : partnerType y = .string := by
      rw [partnerType, hytext, Bool.or_true, if_pos rfl]
    exact ⟨string x.text, by rw [hpartner]; rfl, standsFor_text htext hytext⟩
  · have hpartner : ∀ {p}, x.type.primitive? = some p → partnerType y = p := by
      intro p hp
      refine partnerType_eq (hy ▸ hp) ?_ hnumeric
      rw [isUntyped, isText, isInstanceOf, isInstanceOf, isInstanceOf, hy, hneither]
      exact Bool.false_ne_true
    rcases hfamily with hexact | htemporal | hspan
    · have hself : x.type.primitive? = some x.type := by
        revert hexact
        cases x.type <;> decide
      rw [hpartner hself]
      exact ⟨x, castTo_text_self .minimal hx hexact, rfl, rfl⟩
    · obtain ⟨t, ht⟩ := temporal_of_type htemporal
      obtain ⟨u, hu⟩ := temporal_of_type (hy ▸ htemporal)
      have hspace : t.InSpace x.type := by
        rw [InSpace, ht] at hx
        exact hx
      obtain ⟨p, hmem, hp, hself, hpspace, hptext⟩ := exists_primitive_temporal htemporal hspace
      have hcast := castTo_text_temporal .minimal hmem hpspace
      have htext : x.text = String.ofList (t.text p) := by
        rw [text, ht]
        exact congrArg String.ofList hptext.symm
      rw [hpartner hp, htext]
      exact ⟨_, hcast, standsFor_temporal rfl ht hu (hself.trans hp.symm) hy⟩
    · obtain ⟨d, hd⟩ := (Scalar.payloads x.fits).duration hspan
      obtain ⟨c, hc⟩ := (Scalar.payloads y.fits).duration (hy ▸ hspan)
      obtain ⟨hw, hplain⟩ := hduration d hd
      obtain ⟨d', hcast, hmonths, hseconds⟩ := castTo_text_duration .minimal hx hd hw
      rw [hpartner (ItemType.isParsed_duration hspan).2]
      exact ⟨_, hcast, standsFor_duration rfl hd hc hmonths hseconds (hplain.imp_left Eq.symm)⟩

/-- An untyped operand compares like the value that it spells, beside a value of the type of that
value: with the same truth value or the same error, by every operator and on either side. Durations
are those whose text is exact, and the ordered duration types are only tested for equality. -/
theorem generalCompare_untyped_text (op : Relation) (x y : Atomic) (hx : x.InSpace)
    (hy : y.type = x.type) (htype : x.type.isSpelled)
    (hduration : ∀ d, x.scalar = .duration d →
      d.IsWritable ∧ (x.type = .duration ∨ op.isEquality)) :
    generalCompare op [untyped x.text] [y] = generalCompare op [x] [y] ∧
      generalCompare op [y] [untyped x.text] = generalCompare op [y] [x] := by
  simp only [generalCompare_pair]
  cases huntyped : x.isUntyped with
  | true =>
    rw [untyped_text huntyped]
    exact ⟨rfl, rfl⟩
  | false =>
    obtain ⟨b, hcast, hb⟩ := exists_substitute hx htype huntyped hy hduration
    have hyuntyped : y.isUntyped = false := by
      rw [← huntyped, isUntyped, isUntyped, isInstanceOf, isInstanceOf, hy]
    exact related_of_standsFor huntyped hyuntyped hcast hb

/-- Three and a half seconds as untyped text, beside the same seconds with another place. -/
theorem generalCompare_untyped_text_seconds :
    let short : Atomic :=
      ⟨.dayTimeDuration, .duration ⟨0, ⟨false, 35, 1, by decide, by decide⟩⟩, by decide⟩
    let long : Atomic :=
      ⟨.dayTimeDuration, .duration ⟨0, ⟨false, 350, 2, by decide, by decide⟩⟩, by decide⟩
    short.text = "PT3.5S" ∧ generalCompare .ne [untyped short.text] [long] = .ok false := by
  intro short long
  have hspace : short.InSpace := ⟨by decide, .inl ⟨by decide, by decide⟩, nofun, fun _ => rfl⟩
  refine ⟨by decide +kernel, ?_⟩
  refine (generalCompare_untyped_text .ne short long hspace rfl (by decide) ?_).1.trans
    (by decide +kernel)
  rintro d ⟨⟩
  exact ⟨⟨by decide, by decide, by decide⟩, .inr rfl⟩

/-- Untyped text of a year is not ordered beside two years, though a year is. -/
theorem generalCompare_untyped_months :
    let year : Atomic := ⟨.yearMonthDuration, .duration ⟨12, .zero⟩, by decide⟩
    let two : Atomic := ⟨.yearMonthDuration, .duration ⟨24, .zero⟩, by decide⟩
    year.text = "P1Y" ∧ generalCompare .lt [year] [two] = .ok true ∧
      generalCompare .lt [untyped year.text] [two] =
        .error (.typeError "xs:duration and xs:yearMonthDuration cannot be compared") := by
  decide +kernel

end Atomic

end XPath
