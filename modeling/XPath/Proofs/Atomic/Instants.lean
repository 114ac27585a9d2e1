import XPath.Proofs.Atomic.Coherence
import XPath.Proofs.Atomic.Concreteness
import XPath.Proofs.Atomic.Ordering
import XPath.Proofs.Time.DayNumbers

/-!
# Instants of dates and times

A date or time that is read, and one that a cast gives, has a moment of the calendar, but its instant
need not be in the calendar. It is, unless the offset leads out of the first or the last day
(`Atomic.Obtained.instants`). Dates and times that have instants can be compared, and are compared as
what has elapsed until then in UTC. The last hours of the calendar, fourteen hours west of UTC, have no
instant (`Atomic.cast_last_hours`).
-/

namespace XPath

open Time

variable {type target : ItemType} {ns : Namespaces} {t u : Temporal} {a b r : Atomic}

/-! ## Reading and converting -/

/-- A text is read as a value of the type that is asked for. -/
theorem Time.Temporal.fits_of_parse {text : String} (ht : Temporal.parse type text = .ok t) :
    (Scalar.temporal t).fits type := by
  have hread := Temporal.parse_eq_ok_iff.1 ht
  simp only [Temporal.read?, Option.bind_eq_bind, Option.bind_eq_some_iff, Prod.exists] at hread
  obtain ⟨body, -, -, moment, hmoment, -⟩ := hread
  exact Atomic.fits_temporal_iff.2 (mem_temporalTypes hmoment)

namespace Atomic

/-- Dates and times are converted from dates and times. -/
theorem convert_temporalType (htype : target ∈ temporalTypes) (hr : a.convert target = .ok r) :
    ∃ t, a.scalar = .temporal t ∧ convertTemporal a.type target t = .ok r := by
  obtain ⟨type, scalar, hfits⟩ := a
  simp only [temporalTypes, List.mem_cons, List.not_mem_nil, or_false] at htype
  rcases htype with rfl | rfl | rfl | rfl | rfl | rfl | rfl | rfl | rfl <;>
    cases scalar <;> first | exact ⟨_, rfl, hr⟩ | cases hr

/-- A date or time is one of the calendar. -/
def InCalendar (a : Atomic) : Prop := ∀ t, a.scalar = .temporal t → t.InCalendar

theorem inCalendar_untyped (s : String) : (untyped s).InCalendar := fun _ ht => nomatch ht

theorem inCalendar_convertTemporal {source : ItemType} (ht : t.InCalendar) :
    (convertTemporal source target t).All InCalendar := by
  rintro r hr u hu
  rw [convertTemporal] at hr
  split at hr
  · next m hm =>
    obtain ⟨hdate, htime⟩ := projection?_isValid ⟨ht.moment.date, ht.range⟩ ht.moment.time hm
    rw [(create_eq_ok_iff.1 hr).2] at hu
    cases hu
    exact ⟨⟨hdate.1, htime⟩, hdate.2, ht.offset⟩
  · cases hr

theorem inCalendar_ofLexical {text : String} (htype : target ∈ temporalTypes) :
    (ofLexical ns target text).All InCalendar := by
  rw [ofLexical_temporalType htype]
  refine .bind (Q := Temporal.InCalendar) (fun t ht => ?_) fun t ht r hr u hu => ?_
  · exact (Temporal.read?_inSpace (Temporal.parse_eq_ok_iff.1 ht)).inCalendar
  · rw [(create_eq_ok_iff.1 hr).2] at hu
    cases hu
    exact ht

/-- A cast of a date or time of the calendar gives one of the calendar, and so does reading a text. -/
theorem inCalendar_castTo (ha : a.InCalendar) : (a.castTo ns target).All InCalendar := by
  intro r hr t ht
  have htype : target ∈ temporalTypes := by
    rw [← (type_castTo r hr).1]
    exact fits_temporal_iff.1 (ht ▸ r.fits)
  have hparsed : target.isParsed := by
    revert htype
    cases target <;> decide
  rw [castTo_of_isParsed hparsed] at hr
  split_ifs at hr with hself hlike
  · obtain rfl := Except.ok.inj hr
    exact ha t ht
  · exact inCalendar_ofLexical htype r hr t ht
  · obtain ⟨u, hu, hr⟩ := convert_temporalType htype hr
    exact inCalendar_convertTemporal (ha u hu) r hr t ht

/-- What is read as a date or time, and what a cast gives. -/
inductive Obtained : Atomic → Prop
  | read {type : ItemType} {text : String} {t : Temporal} (ht : Temporal.parse type text = .ok t) :
    Obtained ⟨type, .temporal t, Temporal.fits_of_parse ht⟩
  | cast {ns : Namespaces} {a b : Atomic} {target : TypeName} (ha : a.InCalendar)
    (hb : a.castWith ns target = .ok b) : Obtained b

theorem Obtained.inCalendar (ha : a.Obtained) : a.InCalendar := by
  cases ha with
  | read ht =>
    rintro _ ⟨⟩
    exact (Temporal.read?_inSpace (Temporal.parse_eq_ok_iff.1 ht)).inCalendar
  | @cast _ _ _ target ha hb =>
    cases target with
    | unknown text => cases hb
    | known target => exact inCalendar_castTo ha a hb

theorem Obtained.hasInstant_iff (ha : a.Obtained) (ht : a.scalar = .temporal t) :
    (a.hasInstant ↔ t.InReach) ∧ (a.hasInstant ↔ t.StaysInside) := by
  have hcalendar := ha.inCalendar t ht
  have hreach : a.hasInstant ↔ t.InReach := by
    rw [hasInstant, ht]
    exact Temporal.hasInstant_iff hcalendar
  exact ⟨hreach, hreach.trans (Temporal.inReach_iff hcalendar)⟩

/-- An instant is the moment that a date or time is in UTC. The calendar has it unless the offset leads
out of the first or the last day. Two dates or times of one type can be compared just when both have
instants, and are then ordered and deep-equal as what has elapsed until then in UTC. -/
theorem Obtained.instants (ha : a.Obtained) (hb : b.Obtained)
    (ht : a.scalar = .temporal t) (hu : b.scalar = .temporal u) :
    t.instant.IsValid ∧ t.instant.elapsed = t.utc ∧
      (a.hasInstant ↔ t.InReach) ∧ (a.hasInstant ↔ t.StaysInside) ∧
      (a.canCompare b ↔
        (a.type.primitive? = b.type.primitive? → t.StaysInside ∧ u.StaysInside)) ∧
      (t.StaysInside → u.StaysInside → a.type.primitive? = b.type.primitive? →
        (∀ e, a.compare b e = .ok (some (Ord.compare t.utc u.utc))) ∧
        (a.deepEqual b ↔ t.utc = u.utc)) := by
  obtain ⟨hvalid, helapsed⟩ := Temporal.instant_spec (ha.inCalendar t ht)
  obtain ⟨hreach, hstays⟩ := ha.hasInstant_iff ht
  have hstays' := (hb.hasInstant_iff hu).2
  have horder := Temporal.compare_instant (ha.inCalendar t ht) (hb.inCalendar u hu)
  refine ⟨hvalid, helapsed, hreach, hstays, ?_, fun _ _ htype => ⟨fun e => ?_, ?_⟩⟩
  · rw [canCompare_temporals ht hu, hstays, hstays']
  · rw [compare_temporals ht hu, if_pos htype, horder]
  · rw [deepEqual_temporals ht hu htype, Temporal.sameInstant, decide_eq_true_iff,
      ← compare_eq_iff_eq, horder, compare_eq_iff_eq]

/-- The first moment in UTC as a text states it with an offset, and the last one of a day east of it. -/
theorem instants_far_ends :
    ∃ a b t u, (untyped "-262143-01-01T14:00:00+14:00").castWith .minimal (.known .dateTime) = .ok a ∧
      Temporal.parse .dateTimeStamp "262142-12-31T23:59:59.999999999+14:00" = .ok u ∧
      a.scalar = .temporal t ∧ b.scalar = .temporal u ∧ b.type = .dateTimeStamp ∧
      t.instant.elapsed = t.utc ∧ t.utc = Moment.first.elapsed ∧ a.hasInstant ∧
      a.canCompare b ∧ a.compare b false = .ok (some .lt) := by
  let t : Temporal := ⟨⟨.first, ⟨14, 0, 0, 0⟩⟩, some 50400⟩
  let u : Temporal := ⟨⟨.last, ⟨23, 59, 59, 999999999⟩⟩, some 50400⟩
  have hcast : (untyped "-262143-01-01T14:00:00+14:00").castWith .minimal (.known .dateTime) =
      .ok ⟨.dateTime, .temporal t, rfl⟩ := rfl
  have hparse : Temporal.parse .dateTimeStamp "262142-12-31T23:59:59.999999999+14:00" = .ok u := rfl
  have ha : Obtained ⟨.dateTime, .temporal t, rfl⟩ := .cast (inCalendar_untyped _) hcast
  have hb : Obtained ⟨.dateTimeStamp, .temporal u, rfl⟩ := .read hparse
  have hstays : t.StaysInside := ⟨fun _ => by decide, fun h => absurd h (by decide)⟩
  have hstays' : u.StaysInside := ⟨fun h => absurd h (by decide), fun _ => by decide⟩
  obtain ⟨-, helapsed, -, hinstant, hcan, hordered⟩ := ha.instants hb rfl rfl
  obtain ⟨hcompare, -⟩ := hordered hstays hstays' rfl
  exact ⟨_, _, t, u, hcast, hparse, rfl, rfl, rfl, helapsed, by decide, hinstant.2 hstays,
    hcan.2 fun _ => ⟨hstays, hstays'⟩, (hcompare false).trans (by decide)⟩

/-- The last hours of the calendar, fourteen hours west of UTC, have no instant. -/
theorem cast_last_hours :
    ∃ a, (untyped "262142-12-31T23:59:59-14:00").castWith .minimal (.known .dateTime) = .ok a ∧
      a.Obtained ∧ a.hasInstant = false ∧ a.canCompare a = false := by
  have hcast : (untyped "262142-12-31T23:59:59-14:00").castWith .minimal (.known .dateTime) =
      .ok ⟨.dateTime, .temporal ⟨⟨.last, ⟨23, 59, 59, 0⟩⟩, some (-50400)⟩, rfl⟩ := rfl
  exact ⟨_, hcast, .cast (inCalendar_untyped _) hcast, rfl, rfl⟩

end Atomic

end XPath
