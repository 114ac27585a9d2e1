import XPath.Lazy.Convert
import XPath.Proofs.Lazy.Combinators
import XPath.Proofs.Lazy.Provision

/-!
# Argument conversion

What comes of an argument that is converted to a declared type: the converted items if the type takes
the argument (`SequenceType.Takes`), else an error (`Producer.convert_decides`). An item that has to be
the only one is not delivered before the argument has ended.
-/

namespace XPath

open Producer

variable {h : Host} {type : SequenceType} {t target : ItemType} {name : TypeName} {access : Access}
  {place : ParameterPlace} {p q : Producer} {s u : Session} {a b : Atomic} {v w : Value}
  {vs ws : List Value}

/-! ## Items -/

/-- The promotions of the conversion rules. -/
inductive ItemType.Promotes : ItemType → ItemType → Prop
  | decimalToDouble {source} : source.isSubtypeOf .decimal → Promotes source .double
  | floatToDouble {source} : source.isSubtypeOf .float → Promotes source .double
  | decimalToFloat {source} : source.isSubtypeOf .decimal → Promotes source .float
  | uriToString {source} : source.isSubtypeOf .anyUri → Promotes source .string

/-- Decimals and floats have numbers for their payloads. -/
theorem isNumeric_of_fits {scalar : Scalar} (hfits : scalar.fits t)
    (ht : (t.isSubtypeOf .decimal || t.isSubtypeOf .float) = true) :
    Atomic.isNumeric ⟨t, scalar, hfits⟩ := by
  cases scalar with
  | integer | decimal | float | double => rfl
  | _ =>
    exfalso
    simp only [Scalar.fits] at hfits
    revert hfits ht
    cases t <;> decide

/-- A promotion always succeeds. -/
theorem ItemType.Promotes.exists_cast (ha : a.type.Promotes t) : ∃ b, a.cast t = .ok b := by
  obtain ⟨type, scalar, hfits⟩ := a
  change type.Promotes t at ha
  by_cases htype : type = t
  · cases ha <;> exact ⟨_, if_pos htype⟩
  rcases ha with h | h | h | h
  case uriToString => exact ⟨_, if_neg htype⟩
  all_goals
    have hnumber := isNumeric_of_fits hfits (by simp only [h, Bool.true_or, Bool.or_true])
    cases scalar with
    | integer | decimal | float | double => exact ⟨_, if_neg htype⟩
    | _ => cases hnumber

theorem promotes_iff : promotes t target = true ↔ t.Promotes target := by
  constructor
  · intro h
    unfold promotes at h
    split at h
    case h_1 => exact (Bool.or_eq_true .. ▸ h).elim .decimalToDouble .floatToDouble
    case h_2 => exact .decimalToFloat h
    case h_3 => exact .uriToString h
    case h_4 => cases h
  · rintro (h | h | h | h) <;> simp [promotes, h]

/-- What the conversion rules make of an item for an item type: an instance is left alone, an untyped
value is cast, and other atomic values are promoted. -/
inductive Value.Converts (name : TypeName) : Value → Value → Prop
  | instance {x} : name.admits x.itemType = true → Converts name x x
  | untyped {target c d} : name = .known target → target.isAtomic = true →
      c.isInstanceOf target = false → c.isInstanceOf .untypedAtomic = true → c.cast target = .ok d →
      Converts name (.atomic c) (.atomic d)
  | promoted {target c d} : name = .known target → target.isAtomic = true →
      c.isInstanceOf target = false → c.type.Promotes target → c.cast target = .ok d →
      Converts name (.atomic c) (.atomic d)

theorem Atomic.convertTo_eq_ok : a.convertTo t = .ok b ↔
    a.isInstanceOf t = true ∧ a = b ∨
      a.isInstanceOf t = false ∧ (a.isInstanceOf .untypedAtomic = true ∨ a.type.Promotes t) ∧
        a.cast t = .ok b := by
  rw [convertTo]
  cases hinstance : a.isInstanceOf t with
  | true => simp
  | false =>
    simp only [Bool.false_eq_true, if_false, false_and, true_and, false_or, ← promotes_iff,
      ← Bool.or_eq_true]
    split
    case isTrue hconverts => simp [hconverts]
    case isFalse hconverts => simp [hconverts]

theorem SequenceType.exists_of_isAtomic (htype : type.isAtomic = true) :
    ∃ t, type.itemType = .known t ∧ t.isAtomic = true := by
  obtain ⟨t | text, occurrence⟩ := type
  · exact ⟨t, rfl, htype⟩
  · cases htype

theorem Value.convertTo_atomic (htype : type.itemType = .known t) (hatomic : t.isAtomic = true) :
    (Value.atomic a).convertTo type place = .ok w ↔ ∃ b, a.convertTo t = .ok b ∧ .atomic b = w := by
  obtain ⟨name, occurrence⟩ := type
  obtain rfl : name = .known t := htype
  simp only [convertTo, hatomic, if_true]
  cases a.convertTo t <;> simp

theorem Value.convertTo_other (hv : ∀ a, v = .atomic a → type.isAtomic = false) :
    v.convertTo type place = .ok w ↔ type.itemType.admits v.itemType = true ∧ v = w := by
  have hcheck {c : Bool} {e : Error} : (if c then .ok v else .error e : Except Error Value) = .ok w ↔
      c = true ∧ v = w := by
    cases c <;> simp
  rw [← @hcheck _ (place.wrongType type v)]
  obtain ⟨name, occurrence⟩ := type
  cases v with
  | atomic a =>
    cases name with
    | known t =>
      have ht : t.isAtomic = false := hv a rfl
      simp only [convertTo, ht, Bool.false_eq_true, if_false]
      rfl
    | unknown text => rfl
  | node | map | array | function => rfl

/-- An item is converted as the rules say. -/
theorem Value.convertTo_eq_ok : v.convertTo type place = .ok w ↔ v.Converts type.itemType w := by
  have hother (hv : ∀ a, v = .atomic a → type.isAtomic = false) :
      v.convertTo type place = .ok w ↔ v.Converts type.itemType w := by
    rw [convertTo_other hv]
    constructor
    · rintro ⟨hinstance, rfl⟩
      exact .instance hinstance
    · rintro (hinstance | ⟨htype, hatomic, -, -, -⟩ | ⟨htype, hatomic, -, -, -⟩)
      · exact ⟨hinstance, rfl⟩
      all_goals
        have hfalse := hv _ rfl
        rw [SequenceType.isAtomic, htype] at hfalse
        exact absurd hatomic (Bool.eq_false_iff.1 hfalse)
  cases hatomic : type.isAtomic with
  | false => exact hother fun _ _ => hatomic
  | true =>
    cases v with
    | atomic a =>
      obtain ⟨t, htype, ht⟩ := SequenceType.exists_of_isAtomic hatomic
      rw [convertTo_atomic htype ht]
      constructor
      · rintro ⟨b, hb, rfl⟩
        rcases Atomic.convertTo_eq_ok.1 hb with ⟨hinstance, rfl⟩ | ⟨hinstance, hrule | hrule, hcast⟩
        · exact .instance (by rw [htype]; exact hinstance)
        · exact .untyped htype ht hinstance hrule hcast
        · exact .promoted htype ht hinstance hrule hcast
      · rintro (hinstance | ⟨htype', -, hinstance, hrule, hcast⟩ | ⟨htype', -, hinstance, hrule, hcast⟩)
        · rw [htype] at hinstance
          exact ⟨a, Atomic.convertTo_eq_ok.2 (.inl ⟨hinstance, rfl⟩), rfl⟩
        · obtain rfl := TypeName.known.inj (htype.symm.trans htype')
          exact ⟨_, Atomic.convertTo_eq_ok.2 (.inr ⟨hinstance, .inl hrule, hcast⟩), rfl⟩
        · obtain rfl := TypeName.known.inj (htype.symm.trans htype')
          exact ⟨_, Atomic.convertTo_eq_ok.2 (.inr ⟨hinstance, .inr hrule, hcast⟩), rfl⟩
    | node | map | array | function => exact hother fun a ha => by cases ha

/-! ## Sequences -/

namespace SequenceType

/-- A sequence type takes the items of an argument and makes others of them. -/
structure Takes (type : SequenceType) (vs ws : List Value) : Prop where
  count : type.occurrence.allows vs.length = true
  items : List.Forall₂ (Value.Converts type.itemType) vs ws

/-- What is counted and checked of an argument: its items, or its atomic values if the type is atomic. -/
def source (type : SequenceType) (access : Access) (argument : Producer) : Producer :=
  if type.isAtomic then atomize access argument else argument

/-- Any items at all; an argument of such a type is handed on as it is. -/
def IsWidest (type : SequenceType) : Prop :=
  type.itemType = .known .item ∧ (type.occurrence = .zeroOrMore ∨ type.occurrence = .oneOrMore)

theorem IsWidest.source_eq (htype : type.IsWidest) : type.source access p = p := by
  rw [source, isAtomic, htype.1]
  rfl

theorem IsWidest.not_isSingle (htype : type.IsWidest) : type.occurrence.isSingle = false := by
  rcases htype.2 with h | h <;> rw [h] <;> rfl

theorem IsWidest.allows (htype : type.IsWidest) (hplus : type = ⟨.known .item, .oneOrMore⟩ → vs ≠ []) :
    type.occurrence.allows vs.length = true := by
  obtain ⟨name, occurrence⟩ := type
  obtain ⟨rfl, rfl | rfl⟩ := htype
  · rfl
  · exact decide_eq_true (List.length_pos_of_ne_nil (hplus rfl))

/-- Nothing is converted. -/
theorem IsWidest.eq_of_takes (htype : type.IsWidest) (htakes : type.Takes vs ws) : ws = vs := by
  have hsame {v w : Value} (hv : v.Converts type.itemType w) : w = v := by
    rcases hv with _ | ⟨hname, hatomic, -⟩ | ⟨hname, hatomic, -⟩
    · rfl
    all_goals
      obtain rfl := TypeName.known.inj (htype.1.symm.trans hname)
      cases hatomic
  exact (List.forall₂_eq_eq_eq ▸ htakes.items.imp fun _ _ hv => (hsame hv).symm : vs = ws).symm

theorem IsWidest.takes (htype : type.IsWidest) (hcount : type.occurrence.allows vs.length = true) :
    type.Takes vs vs where
  count := hcount
  items := by
    have hany : ∀ kind : ItemType, kind.isSubtypeOf .item = true := by
      intro kind
      cases kind <;> decide
    exact List.forall₂_same.2 fun v _ => .instance (by rw [htype.1]; exact hany _)

end SequenceType

/-- Asked for item after item, or driven to the end at once, the producer gives these items, and then the
error if there is one. -/
structure Producer.Completes (h : Host) (p : Producer) (s : Session) (vs : List Value) (e : Option Error) :
    Prop where
  provides : ∀ u : Session, u.calm = s → p.Provides h u vs e
  drains : ∀ u : Session, u.calm = s → ∃ fuel t, materialize h fuel [] p u = some (ended vs e, t)

theorem Producer.Yields.completes {e : Option Error} {t : Session} (hp : Yields h p s vs e t) :
    p.Completes h s vs e where
  provides _ hu := hp.provides hu
  drains _ hu := by
    obtain ⟨fuel, t, -, hm⟩ := hp.materialize [] hu
    exact ⟨fuel, t, hm⟩

/-! ## The three ways of converting -/

namespace SequenceType

/-- The end of an argument with so many items: those that are held back, if the number is allowed. -/
def finish (type : SequenceType) (place : ParameterPlace) (count : Nat) (held : List Value) : Producer :=
  if type.occurrence.allows count then ofList held else fail (place.wrongCount type count)

/-- An item is held back, and there must be no other one. -/
def hold (type : SequenceType) (place : ParameterPlace) (i : Nat) (v : Value) : Gathering :=
  if 0 < i then .fail (place.wrongCount type (i + 1))
  else match v.convertTo type place with
    | .ok v => .more [v]
    | .error e => .fail e

/-- An item is delivered at once. -/
def handOn (type : SequenceType) (place : ParameterPlace) (v : Value) : Producer :=
  match v.convertTo type place with
  | .ok v => singleton v
  | .error e => fail e

variable (type place)

theorem convert_widest (hw : type.IsWidest) : p.convert access type place = p := if_pos hw

theorem convert_single (hw : ¬type.IsWidest) (hsingle : type.occurrence.isSingle = true) :
    p.convert access type place =
      gather (fun i _ v => type.hold place i v) 0 [] (type.source access p) fun held =>
        type.finish place held.length held :=
  (if_neg hw).trans (if_pos hsingle)

theorem convert_many (hw : ¬type.IsWidest) (hsingle : type.occurrence.isSingle = false) :
    p.convert access type place =
      forEach 0 (type.source access p) (fun _ v => type.handOn place v) fun count =>
        type.finish place count [] :=
  (if_neg hw).trans (if_neg (Bool.eq_false_iff.1 hsingle))

end SequenceType

theorem Occurrence.allows_many {o : Occurrence} {n : Nat} (ho : o.isSingle = true) :
    o.allows (n + 1 + 1) = false := by
  cases o with
  | exactlyOne | zeroOrOne => simp [allows]
  | zeroOrMore | oneOrMore => cases ho

namespace Producer

variable {e : Option Error} {source : Producer} {i : Nat} {t : Session}

/-- From the items and the end of a source on, a producer gives the items that the type makes of them, or
fails if it does not take them. -/
structure Judges (h : Host) (type : SequenceType) (q : Producer) (s : Session) (i : Nat)
    (vs : List Value) (e : Option Error) (t : Session) : Prop where
  takes : ∀ ws, e = none → type.occurrence.allows (i + vs.length) = true →
    List.Forall₂ (Value.Converts type.itemType) vs ws → Yields h q s ws none t
  rejects : (∀ ws, e = none → type.occurrence.allows (i + vs.length) = true →
    ¬List.Forall₂ (Value.Converts type.itemType) vs ws) → ∃ ws e' u, Yields h q s ws (some e') u

theorem Judges.failed {e' : Error} (hd : Draws h q s (.failed e') u)
    (hno : ∀ ws, e = none → type.occurrence.allows (i + vs.length) = true →
      ¬List.Forall₂ (Value.Converts type.itemType) vs ws) : Judges h type q s i vs e t where
  takes ws he hcount hitems := absurd hitems (hno ws he hcount)
  rejects _ := ⟨[], e', u, .failed hd⟩

theorem Draws.finish_failed {held : List Value} (hcount : type.occurrence.allows i = false) :
    Draws h (type.finish place i held) s (.failed (place.wrongCount type i)) s := by
  rw [SequenceType.finish, hcount]
  exact .fail

/-- Item after item is converted; at the end their number is checked. -/
theorem Yields.forEach_judges (hs : Yields h source s vs e t) (i : Nat) :
    Judges h type (forEach i source (fun _ v => type.handOn place v)
      fun count => type.finish place count []) s i vs e t := by
  induction hs generalizing i with
  | finish hd =>
    cases hcount : type.occurrence.allows i with
    | false =>
      exact .failed (.forEach_finish hd (.finish_failed hcount)) fun ws _ hallows => by
        rw [List.length_nil, Nat.add_zero, hcount] at hallows
        cases hallows
    | true =>
      constructor
      · intro ws _ _ hitems
        cases hitems
        refine .finish (.forEach_finish hd ?_)
        rw [SequenceType.finish, if_pos hcount]
        exact .done
      · intro hno
        exact absurd .nil (hno [] rfl hcount)
  | failed hd => exact .failed (.forEach_failed hd) nofun
  | @item p v rest s t vs e u hd hy ih =>
    have hlength : i + (v :: vs).length = i + 1 + vs.length := by rw [List.length_cons]; omega
    cases hv : v.convertTo type place with
    | error e' =>
      have hfailed : Draws h (type.handOn place v) t (.failed e') t := by
        rw [SequenceType.handOn, hv]
        exact .fail
      refine .failed (.forEach_item hd (.append_failed hfailed)) fun ws _ _ hitems => ?_
      cases hitems with
      | cons hitem =>
        rw [Value.convertTo_eq_ok.2 hitem] at hv
        cases hv
    | ok w =>
      have hfirst {ws e' u'} (hrest : Yields h (forEach (i + 1) rest (fun _ v => type.handOn place v)
          fun count => type.finish place count []) t ws e' u') :
          Yields h (forEach i p (fun _ v => type.handOn place v) fun count => type.finish place count [])
            s (w :: ws) e' u' := by
        refine .item (.forEach_item hd (.append_item ?_))
          (hrest.imp fun _ _ hd => .append_finish .done hd)
        rw [SequenceType.handOn, hv]
        exact .emit
      obtain ⟨htakes, hrejects⟩ := ih (i + 1)
      constructor
      · intro ws he hcount hitems
        cases hitems with
        | @cons _ w' _ ws hitem hitems =>
          rw [Value.convertTo_eq_ok.2 hitem] at hv
          cases hv
          exact hfirst (htakes ws he (hlength ▸ hcount) hitems)
      · intro hno
        obtain ⟨ws, e', u', hrest⟩ := hrejects fun ws he hcount hitems =>
          hno (w :: ws) he (hlength ▸ hcount) (.cons (Value.convertTo_eq_ok.1 hv) hitems)
        exact ⟨w :: ws, e', u', hfirst hrest⟩

/-- The only item is converted and held back until the source has ended. -/
theorem Yields.gather_judges (hs : Yields h source s vs e t) (hsingle : type.occurrence.isSingle = true) :
    Judges h type (gather (fun i _ v => type.hold place i v) 0 [] source fun held =>
      type.finish place held.length held) s 0 vs e t := by
  have hfinish (held : List Value) {t : Session} (hcount : type.occurrence.allows held.length = true) :
      Yields h (type.finish place held.length held) t held none t := by
    rw [SequenceType.finish, if_pos hcount]
    exact .ofList held t
  cases hs with
  | finish hd =>
    cases hcount : type.occurrence.allows 0 with
    | false =>
      exact .failed (.gather_finish hd (.finish_failed hcount)) fun ws _ hallows => by
        rw [List.length_nil, hcount] at hallows
        cases hallows
    | true =>
      constructor
      · intro ws _ _ hitems
        cases hitems
        exact (hfinish [] hcount).imp fun _ _ => .gather_finish hd
      · intro hno
        exact absurd .nil (hno [] rfl hcount)
  | failed hd => exact .failed (.gather_failed hd) nofun
  | @item _ v rest _ t' vs _ _ hd hy =>
    cases hv : v.convertTo type place with
    | error e' =>
      have hfailed : type.hold place 0 v = .fail e' := by
        simp only [SequenceType.hold, hv, Nat.lt_irrefl, if_false]
      refine .failed (.gather_fail hd hfailed) fun ws _ _ hitems => ?_
      cases hitems with
      | cons hitem =>
        rw [Value.convertTo_eq_ok.2 hitem] at hv
        cases hv
    | ok w =>
      have hheld : type.hold place 0 v = .more [w] := by
        simp only [SequenceType.hold, hv, Nat.lt_irrefl, if_false]
      have hone : type.occurrence.allows 1 = true := by
        revert hsingle
        cases type.occurrence <;> decide
      cases hy with
      | finish hd' =>
        constructor
        · intro ws _ _ hitems
          cases hitems with
          | cons hitem hitems =>
            cases hitems
            rw [Value.convertTo_eq_ok.2 hitem] at hv
            cases hv
            exact (hfinish [w] hone).imp fun _ _ hk => .gather_more hd hheld (.gather_finish hd' hk)
        · intro hno
          exact absurd (.cons (Value.convertTo_eq_ok.1 hv) .nil) (hno [w] rfl hone)
      | failed hd' => exact .failed (.gather_more hd hheld (.gather_failed hd')) nofun
      | item hd' =>
        refine .failed (.gather_more hd hheld (.gather_fail hd' (if_pos Nat.one_pos)))
          fun ws _ hcount => ?_
        rw [Nat.zero_add, List.length_cons, List.length_cons, Occurrence.allows_many hsingle] at hcount
        cases hcount

/-- An item that has to be the only one is delivered when the source has given it and has ended. -/
theorem Draws.of_gather_hold (hd : Draws h (gather (fun i _ v => type.hold place i v) 0 [] source
    fun held => type.finish place held.length held) s (.item v q) t) :
    ∃ x, Yields h source s [x] none t := by
  have hstart {held : List Value} {u : Session}
      (hd : Draws h (type.finish place held.length held) u (.item v q) t) : t = u ∧ held ≠ [] := by
    rw [SequenceType.finish] at hd
    split at hd
    · cases held with
      | nil => cases hd
      | cons =>
        cases hd
        exact ⟨rfl, List.cons_ne_nil _ _⟩
    · cases hd
  cases hd with
  | gather_more hs hheld hd =>
    cases hd with
    | gather_more _ hmore | gather_enough _ hmore => simp [SequenceType.hold] at hmore
    | gather_finish hs' hd =>
      obtain ⟨rfl, -⟩ := hstart hd
      exact ⟨_, .item hs (.finish hs')⟩
  | gather_enough _ henough =>
    simp only [SequenceType.hold, Nat.lt_irrefl, if_false] at henough
    split at henough <;> cases henough
  | gather_finish _ hd => exact absurd rfl (hstart hd).2

/-- An argument whose type takes it is converted item by item, and every other one is an error. An item
that has to be the only one is not delivered before the argument has ended. -/
theorem convert_decides (type : SequenceType) (access : Access) (place : ParameterPlace) (p : Producer)
    (hp : Yields h (type.source access p) s vs e t)
    (hplus : type = ⟨.known .item, .oneOrMore⟩ → vs = [] → e ≠ none) :
    (∀ ws, e = none → type.Takes vs ws → (p.convert access type place).Completes h s ws none) ∧
      ((∀ ws, e = none → ¬type.Takes vs ws) →
        ∃ ws e', (p.convert access type place).Completes h s ws (some e')) ∧
      (type.occurrence.isSingle = true → ∀ u w v q,
        Settles h (p.convert access type place) u (.item v q) w →
        ∃ x, Yields h (type.source access p) u.calm [x] none w.calm) := by
  by_cases hw : type.IsWidest
  · rw [type.convert_widest place hw]
    rw [hw.source_eq] at hp
    refine ⟨fun ws he htakes => ?_, fun hno => ?_, fun hsingle => ?_⟩
    · subst he
      rw [hw.eq_of_takes htakes]
      exact hp.completes
    · cases e with
      | none => exact absurd (hw.takes (hw.allows fun h hvs => hplus h hvs rfl)) (hno vs rfl)
      | some e => exact ⟨vs, e, hp.completes⟩
    · rw [hw.not_isSingle] at hsingle
      cases hsingle
  -- The other types check every item and count.
  have hjudges (q : Producer) (hq : Judges h type q s 0 vs e t) :
      (∀ ws, e = none → type.Takes vs ws → q.Completes h s ws none) ∧
        ((∀ ws, e = none → ¬type.Takes vs ws) → ∃ ws e', q.Completes h s ws (some e')) := by
    refine ⟨fun ws he htakes => ?_, fun hno => ?_⟩
    · exact (hq.takes ws he (by rw [Nat.zero_add]; exact htakes.count) htakes.items).completes
    · obtain ⟨ws, e', u, hy⟩ := hq.rejects fun ws he hcount hitems =>
        hno ws he ⟨by rwa [Nat.zero_add] at hcount, hitems⟩
      exact ⟨ws, e', hy.completes⟩
  cases hsingle : type.occurrence.isSingle with
  | false =>
    rw [type.convert_many place hw hsingle]
    obtain ⟨htakes, hrejects⟩ := hjudges _ (hp.forEach_judges 0)
    exact ⟨htakes, hrejects, nofun⟩
  | true =>
    rw [type.convert_single place hw hsingle]
    obtain ⟨htakes, hrejects⟩ := hjudges _ (hp.gather_judges hsingle)
    exact ⟨htakes, hrejects, fun _ u w v q hsettles => hsettles.draws.of_gather_hold⟩

/-! ## Atomic arguments -/

/-- Items that give rise to themselves are left alone. -/
theorem Yields.flatMap_self {body : Value → Producer} (hs : Yields h source s vs e t)
    (hbody : ∀ v ∈ vs, body v = singleton v) : Yields h (flatMap source body) s vs e t :=
  hs.flatMap_items (List.forall₂_same.2 fun v hv s => by
    rw [hbody v hv]
    exact .emit)

/-- Atomization leaves atomic values alone. -/
theorem Yields.atomize {as : List Atomic} (hs : Yields h source s (as.map .atomic) e t) :
    Yields h (atomize access source) s (as.map .atomic) e t := by
  have hflat : Yields h (flatten source) s (as.map .atomic) e t := hs.flatMap_self fun v hv => by
    obtain ⟨a, -, rfl⟩ := List.mem_map.1 hv
    rfl
  exact hflat.flatMap_self fun v hv => by
    obtain ⟨a, -, rfl⟩ := List.mem_map.1 hv
    rfl

theorem convert_decides_uri :
    ((ofList [.atomic (.anyUri "a")]).convert .live ⟨.known .string, .zeroOrOne⟩ ⟨"f", 1⟩).Completes
      .absent .empty [.atomic (.string "a")] none := by
  have hlisted : Yields .absent (ofList [.atomic (.anyUri "a")]) .empty
      ([Atomic.anyUri "a"].map .atomic) none .empty := .ofList _ _
  obtain ⟨htakes, -, -⟩ := convert_decides ⟨.known .string, .zeroOrOne⟩ .live ⟨"f", 1⟩ _
    hlisted.atomize nofun
  exact htakes _ rfl ⟨rfl, .cons (.promoted rfl rfl rfl (.uriToString rfl) rfl) .nil⟩

/-- No item is too few for one or more items of any kind, but it is not checked. -/
theorem convert_decides_widest :
    Yields .absent (SequenceType.source ⟨.known .item, .oneOrMore⟩ .live .done) .empty [] none .empty ∧
      (∀ ws, ¬SequenceType.Takes ⟨.known .item, .oneOrMore⟩ [] ws) ∧
      (Producer.done.convert .live ⟨.known .item, .oneOrMore⟩ ⟨"f", 1⟩).Completes .absent .empty [] none := by
  have hdone : Yields .absent .done .empty [] none .empty := .finish .done
  refine ⟨hdone, fun ws htakes => ?_, hdone.completes⟩
  cases htakes.count

end Producer


end XPath
