import XPath.Expr.Evaluate
import XPath.Proofs.Atomic.ValueSpace
import XPath.Proofs.Expr.Filtering
import XPath.Proofs.Expr.Trees
import XPath.Proofs.Lazy.Settling
import XPath.Proofs.Number.Exactness

/-!
# Numbers as predicates

A number asks for the item at the position that it equals. As a predicate it goes by way of a double,
and compared with `fn:position` it does not if it is an integer or a decimal. Both ways agree on every
number but a decimal whose fraction is lost in its double (`Expr.filter_number`).
-/

namespace XPath

open Number Producer

namespace Atomic

variable {a : Atomic} {i : Int}

/-- The number that a numeric value is, if it is finite. -/
def number? (a : Atomic) : Option ℚ :=
  match a.scalar with
  | .integer i => some i
  | .decimal d => some d.value
  | .float f => f.value?
  | .double d => d.value?
  | _ => none

/-- If the value is a decimal that is not whole, its double is not whole either. -/
def KeepsFraction (a : Atomic) : Prop :=
  ∀ d i, a.scalar = .decimal d → d.toDouble.toInt? = some i → ∃ j : Int, d.value = j

/-- The items at the position that the number equals, which are one or none. -/
def Selects (a : Atomic) (xs items : List Value) : Prop :=
  (∃ i v, xs[i]? = some v ∧ a.number? = some ((i + 1 : Nat) : ℚ) ∧ items = [v]) ∨
    (∀ i < xs.length, a.number? ≠ some ((i + 1 : Nat) : ℚ)) ∧ items = []

/-- A number that is taken for a position is the position that it equals. -/
theorem place_eq_some (hnum : a.isNumeric) (hspace : a.InSpace) (hkeeps : a.KeepsFraction)
    (hi : i.natAbs < 2 ^ 53) : Verdict.place a = some i ↔ a.number? = some (i : ℚ) := by
  obtain ⟨type, scalar, hfits⟩ := a
  cases scalar with
  | integer j => simp [Verdict.place, number?]
  | decimal d =>
    show d.toDouble.toInt? = some i ↔ some d.value = some (i : ℚ)
    rw [Option.some_inj]
    constructor
    · intro h
      obtain ⟨j, hj⟩ := hkeeps d i rfl h
      exact (Decimal.toInt?_toDouble hj hi).1 h
    · exact fun h => (Decimal.toInt?_toDouble h hi).2 h
  | float f =>
    show f.widen.toInt? = some i ↔ f.value? = some (i : ℚ)
    rw [Binary.toInt?_eq_some, Single.value?_widen hspace]
  | double d => exact Binary.toInt?_eq_some
  | _ => cases hnum

/-- A number that is compared with a position equals it or not. -/
theorem compare_integer (hnum : a.isNumeric) (hspace : a.InSpace) (hi : i.natAbs < 2 ^ 53) :
    ∃ o, compare (.integer i) a true = .ok o ∧ (o = some .eq ↔ a.number? = some (i : ℚ)) := by
  have hlimit : i.natAbs < coefficientLimit := hi.trans (by decide)
  have hdecimal (d : Decimal) : some ((Decimal.ofInt i).compare d) = some .eq ↔ some d.value = some (i : ℚ) := by
    rw [Option.some_inj, Option.some_inj, Decimal.compare_eq_iff, Decimal.value_ofInt hlimit, eq_comm]
  have hdouble {d : Double} (hd : d.InFormat) :
      Binary.compare (.ofInt i) d = some .eq ↔ d.value? = some (i : ℚ) :=
    Binary.compare_eq_iff (Binary.inFormat_ofInt Format.isProper_binary64 i) hd (Binary.value?_ofInt hi)
  obtain ⟨type, scalar, hfits⟩ := a
  cases scalar with
  | integer j =>
    have hj : j.natAbs < coefficientLimit := by
      have hcapacity := hspace.capacity
      rw [show coefficientLimit = 2 ^ 96 from rfl]
      omega
    refine ⟨_, rfl, (hdecimal (.ofInt j)).trans ?_⟩
    rw [Decimal.value_ofInt hj]
    rfl
  | decimal d => exact ⟨_, rfl, hdecimal d⟩
  | float f =>
    refine ⟨_, rfl, (hdouble (Single.inFormat_widen f)).trans ?_⟩
    rw [Single.value?_widen hspace]
    rfl
  | double d => exact ⟨_, rfl, hdouble hspace⟩
  | _ => cases hnum

theorem isUntyped_of_isNumeric (hnum : a.isNumeric) : a.isUntyped = false := by
  have hinteger (type : ItemType) : type.isSubtypeOf .integer → type.isSubtypeOf .untypedAtomic = false := by
    cases type <;> decide
  obtain ⟨type, scalar, hfits⟩ := a
  cases scalar with
  | integer => exact hinteger type hfits
  | decimal | float | double =>
    show type.isSubtypeOf .untypedAtomic = false
    rw [show type = _ from of_decide_eq_true hfits]
    rfl
  | _ => cases hnum

theorem generalCompare_integer (hnum : a.isNumeric) (hspace : a.InSpace) (hi : i.natAbs < 2 ^ 53) :
    generalCompare .eq [.integer i] [a] = .ok (decide (a.number? = some (i : ℚ))) := by
  obtain ⟨o, ho, hiff⟩ := compare_integer hnum hspace hi
  have hrelated : related .eq (.integer i) a = .ok (decide (a.number? = some (i : ℚ))) := by
    rw [related, harmonize, isUntyped_of_isNumeric hnum, isUntyped_of_isNumeric rfl]
    show (do let order ← compare (.integer i) a true; return (order.map Relation.eq.holds).getD false) = _
    rw [ho]
    refine congrArg Except.ok ?_
    rw [Bool.eq_iff_iff, decide_eq_true_iff, ← hiff]
    rcases o with _ | _ | _ | _ <;> simp [Relation.holds]
  rw [generalCompare, generalCompare.row, hrelated]
  cases decide (a.number? = some (i : ℚ)) <;> rfl

end Atomic

namespace Producer.Runs

variable {h : Host} {n : Nat} {Ψ : Courses} {p : Producer} {o : Course}

/-- All items, and then the reply that they lead to. -/
theorem withItems {vs : List Value} {next : List Value → Reply} (hp : p.Runs h n 0 Ψ (vs, none))
    (hnext : ∀ Ψ', (ofExcept (next vs)).Runs h n 0 Ψ' o) : (XPath.withAll p next).Runs h n 0 Ψ o :=
  withAll (g := fun _ => o) (k := 0) hp fun _ Ψ' _ => hnext Ψ'

/-- An atomic value is its own atomized value. -/
theorem atomizeAtomic {a : Atomic} {access : Access} (hp : p.Runs h n 0 Ψ ([.atomic a], none)) :
    (Producer.atomize access p).Runs h n 0 Ψ ([.atomic a], none) := by
  have hwithin : ∀ v ∈ [Value.atomic a], v.Within 0 := fun v hv => List.mem_singleton.1 hv ▸ .atomic
  exact atomize (l := fun _ => ([], none)) (fun c hc => absurd hc (Nat.not_lt_zero c)) hwithin hp

end Producer.Runs

/-! ## Prepared operands -/

namespace Expr

variable {static : StaticContext} {fuel : Nat} {s : Session} {v : Value} {c : Context} {access : Access}

/-- A leaf with one item as its value keeps it when it is prepared. -/
theorem evaluate_prepare_leaf (fuel : Nat) (s : Session) {op : Leaf}
    (hop : ∀ c access, op.meaning (some static) c access = .ok (singleton v)) :
    (prepare static fuel (leaf op .blank) s).1.evaluate c access = .ok (ofList [v]) := by
  have hnoted (c : Context) (access : Access) :
      (leaf op ⟨some static, none⟩).evaluate c access = .ok (ofList [v]) := hop c access
  have hprepared : (prepare static fuel (leaf op .blank) s).1 = leaf op ⟨some static, none⟩ ∨
      (prepare static fuel (leaf op .blank) s).1 = leaf op ⟨some static, some [v]⟩ := by
    rw [prepare, prepareNode]
    simp only [notes, withNotes, Notes.blank, Option.none_or, hnoted]
    split
    · split
      case h_1 items t hc =>
        obtain ⟨vs, hy, rfl⟩ := collect_sound hc
        rw [(yields_ofList hy).1]
        exact .inr rfl
      all_goals exact .inl rfl
    · exact .inl rfl
  rcases hprepared with hp | hp
  · rw [hp, hnoted]
  · rw [hp]
    rfl

theorem prepareNode_of_not_constant {e : Expr} (he : e.traits.constant = false) :
    prepareNode static fuel e s = (e.withNotes ⟨e.notes.static?.or (some static), e.notes.cached?⟩, s) := by
  rw [prepareNode]
  simp only [traits_withNotes, he, Bool.false_and, Bool.false_eq_true, if_false]

variable {position : ExpandedName} {a : Atomic}

/-- A prepared call of `fn:position` gives the position of the focus. -/
theorem position_runs (fuel : Nat) (s : Session) (access : Access)
    (hposition : static.functions.lookup position 0 = some (.builtin .position))
    (hitem : c.item = some v) :
    ∃ p, (prepare static fuel (callNamed position []) s).1.evaluate c access = .ok p ∧
      ∀ h n Ψ, p.Runs h n 0 Ψ ([.integer c.position], none) := by
  have hfunction : (prepare static fuel (functionRef position 0) s).1.evaluate c access =
      .ok (ofList [.function (.builtin .position)]) :=
    evaluate_prepare_leaf fuel _ fun c access => by simp only [Leaf.meaning, hposition]
  have hprepared : (prepare static fuel (callNamed position []) s).1 =
      nary (.call []) ⟨some static, none⟩ [(prepare static fuel (functionRef position 0) s).1] := by
    show (prepare static fuel (nary (.call []) .blank [functionRef position 0]) s).1 = _
    simp only [prepare, prepareAll]
    rw [prepareNode_of_not_constant rfl]
    rfl
  have hrun : Builtin.position.run ⟨c, access, static.namespaces⟩ [] =
      .ok (singleton (.integer c.position)) := by
    show (do
      let _ ← CallContext.contextItem ⟨c, access, static.namespaces⟩ "fn:position"
      return singleton (.integer c.position)) = _
    rw [CallContext.contextItem, hitem]
    rfl
  rw [hprepared]
  simp only [evaluate, operandsOf, Notes.recall, NaryOperator.meaning, List.map_cons, List.map_nil,
    Meaning.call, hfunction]
  refine ⟨_, rfl, fun h n Ψ => .withItems (.ofList 0 _) fun Ψ' => ?_⟩
  show (ofExcept (Builtin.position.run ⟨c, access, static.namespaces⟩ [])).Runs h n 0 Ψ' _
  rw [hrun]
  exact .ofList 0 [_]

/-- The prepared comparison of `fn:position` with a number says whether the number is the position of the
focus. -/
theorem positionIs_runs (fuel : Nat) (s : Session) (access : Access)
    (hposition : static.functions.lookup position 0 = some (.builtin .position))
    (hitem : c.item = some v) (hnum : a.isNumeric) (hspace : a.InSpace) (hi : c.position < 2 ^ 53) :
    ∃ p, (prepare static fuel (comparison .eq (callNamed position []) (literal (.atomic a))) s).1.evaluate
        c access = .ok p ∧
      ∀ h n Ψ, p.Runs h n 0 Ψ ([.boolean (decide (a.number? = some (c.position : ℚ)))], none) := by
  obtain ⟨left, hleft, hruns⟩ := position_runs fuel s access hposition hitem
  have hright : (prepare static fuel (literal (.atomic a)) (prepare static fuel (callNamed position []) s).2).1.evaluate
      c access = .ok (ofList [.atomic a]) := evaluate_prepare_leaf fuel _ fun c access => rfl
  have hprepared : (prepare static fuel (comparison .eq (callNamed position []) (literal (.atomic a))) s).1 =
      binary (.comparison .eq) ⟨some static, none⟩ (prepare static fuel (callNamed position []) s).1
        (prepare static fuel (literal (.atomic a)) (prepare static fuel (callNamed position []) s).2).1 := by
    show (prepare static fuel (binary _ .blank _ _) s).1 = _
    simp only [prepare]
    rw [prepareNode_of_not_constant ?_]
    · rfl
    · rw [traits, BinaryOperator.traits]
      simp only [traits_prepare]
      rfl
  rw [hprepared]
  simp only [evaluate, Notes.recall, BinaryOperator.meaning, Meaning.comparison, hleft, hright]
  refine ⟨_, rfl, fun h n Ψ => .withItems (.atomizeAtomic (hruns h n Ψ)) fun Ψ' => ?_⟩
  refine .withItems (.atomizeAtomic (.ofList 0 _)) fun Ψ'' => ?_
  show (ofExcept (do
    let related ← Atomic.generalCompare .eq [.integer c.position] [a]
    return singleton (.boolean related))).Runs h n 0 Ψ'' _
  rw [Atomic.generalCompare_integer hnum hspace (show (c.position : Int).natAbs < 2 ^ 53 from hi)]
  exact .ofList 0 [_]

end Expr

/-! ## Both ways of filtering -/

namespace Verdict

variable {xs : List Value} {verdicts verdicts' : Nat → Verdict}

/-- What is kept depends on the verdicts at the positions that there are. -/
theorem select_congr (hv : ∀ i < xs.length, (verdicts (i + 1)).keeps (i + 1) = (verdicts' (i + 1)).keeps (i + 1)) :
    select verdicts xs = select verdicts' xs := by
  rw [select, select]
  refine congrArg (List.map _) (List.filter_congr fun x hx => hv x.2 ?_)
  exact (List.snd_lt_add_of_mem_zipIdx hx).trans_eq (Nat.zero_add _)

/-- Verdicts that keep the position which a number equals select the items of the number. -/
theorem selects_select {a : Atomic} (verdicts : Nat → Verdict)
    (hv : ∀ i < xs.length, (verdicts (i + 1)).keeps (i + 1) ↔ a.number? = some ((i + 1 : Nat) : ℚ)) :
    a.Selects xs (select verdicts xs) := by
  by_cases hex : ∃ i, ∃ v, xs[i]? = some v ∧ a.number? = some ((i + 1 : Nat) : ℚ)
  · obtain ⟨m, v, hm, ha⟩ := hex
    have hselect : select verdicts xs = select (fun _ => .position (some (m + 1 : Nat))) xs := by
      refine select_congr fun i hi => ?_
      rw [Bool.eq_iff_iff, hv i hi, ha, keeps, beq_iff_eq, Option.some_inj, Option.some_inj, Nat.cast_inj,
        Nat.cast_inj]
    refine .inl ⟨m, v, hm, ha, ?_⟩
    rw [hselect, select_position, hm]
    rfl
  · have hnone : ∀ i < xs.length, a.number? ≠ some ((i + 1 : Nat) : ℚ) := fun i hi ha =>
      hex ⟨i, xs[i], List.getElem?_eq_getElem hi, ha⟩
    have hselect : select verdicts xs = select (fun _ => .truth false) xs := by
      refine select_congr fun i hi => ?_
      rw [Bool.eq_iff_iff, hv i hi]
      exact ⟨fun h => absurd h (hnone i hi), fun h => by cases h⟩
    refine .inr ⟨hnone, ?_⟩
    rw [hselect, select_of_keeps_none fun _ h => by cases h]

end Verdict

namespace Expr

variable {h : Host} {n r w : Nat} {Ψ : Courses} {sel : Expr} {selected : Producer} {xs : List Value}
  {filterNotes : Notes}

/-- A filter by a literal number keeps the item at the position that the number is taken for. -/
theorem filter_literal_runs (static : StaticContext) (fuel : Nat) (s : Session) (hnotes : filterNotes.cached? = none) (hsel : sel.evaluate c access = .ok selected)
    (hruns : selected.Runs h n w Ψ (xs, none)) (hnum : a.isNumeric) :
    ∃ p, (binary .filter filterNotes sel (prepare static fuel (literal (.atomic a)) s).1).evaluate c access =
        .ok p ∧
      p.Runs h n (0 + w) Ψ (Verdict.select (fun _ => .position (Verdict.place a)) xs, none) := by
  have hliteral : (prepare static fuel (literal (.atomic a)) s).1.evaluate c access = .ok (ofList [.atomic a]) :=
    evaluate_prepare_leaf fuel _ fun c access => rfl
  have hverdict : Verdict.ofItems [.atomic a] = .ok (.position (Verdict.place a)) := by
    rw [Verdict.ofItems, if_pos hnum]
  simp only [evaluate, Notes.recall, hnotes, BinaryOperator.meaning, Meaning.filter, hsel, traits_prepare,
    hliteral]
  exact ⟨_, rfl, Meaning.filterConstant_runs hruns (.ofList 0 _) hverdict⟩

/-- A filter by the comparison of `fn:position` with a number keeps the items whose position the number
equals. -/
theorem filter_positionIs_runs (fuel : Nat) (s : Session) (hnotes : filterNotes.cached? = none)
    (hsel : sel.evaluate c access = .ok selected) (hr : r < n) (hruns : selected.Runs h r w Ψ (xs, none))
    (hposition : static.functions.lookup position 0 = some (.builtin .position)) (hnum : a.isNumeric)
    (hspace : a.InSpace) (hlength : xs.length < 2 ^ 53) :
    ∃ p, (binary .filter filterNotes sel (prepare static fuel
        (comparison .eq (callNamed position []) (literal (.atomic a))) s).1).evaluate c access = .ok p ∧
      p.Runs h n (w + (0 + xs.length * (0 + 0))) Ψ
        (Verdict.select (fun i => .truth (decide (a.number? = some (i : ℚ)))) xs, none) := by
  simp only [evaluate, Notes.recall, hnotes, BinaryOperator.meaning, Meaning.filter, hsel, traits_prepare]
  refine ⟨_, rfl, Meaning.filterEach_runs hr hruns (fun i => [.boolean (decide (a.number? = some (i : ℚ)))])
    (fun _ _ _ => rfl) fun i v id Ψ' hv _ _ => ?_⟩
  have hi : i < xs.length := (List.getElem?_eq_some_iff.1 hv).1
  obtain ⟨p, hp, hrun⟩ := positionIs_runs (c := c.withFocus (i + 1) v (.cell id)) fuel s access hposition
    rfl hnum hspace (show i + 1 < 2 ^ 53 by omega)
  exact ⟨p, hp, hrun h n Ψ'⟩

/-- Filtering by a number is filtering by the comparison of `fn:position` with it: both provide the item at
the position that the number equals, or nothing. -/
theorem filter_number {u : Session} {b : Account} (hu : u.calm = b.session) (hb : b.OnCourse h n) (hr : r < n)
    (hsel : sel.evaluate c access = .ok selected) (hruns : selected.Runs h r w b.courses (xs, none))
    (hlength : xs.length < 2 ^ 53) (hnotes : filterNotes.cached? = none)
    (hposition : static.functions.lookup position 0 = some (.builtin .position)) (hnum : a.isNumeric)
    (hspace : a.InSpace) (hkeeps : a.KeepsFraction) (fuel : Nat) (s s' : Session) :
    ∃ items, a.Selects xs items ∧
      (∃ p, (binary .filter filterNotes sel (prepare static fuel (literal (.atomic a)) s).1).evaluate c access =
          .ok p ∧ p.Provides h u items none) ∧
      ∃ p, (binary .filter filterNotes sel (prepare static fuel
          (comparison .eq (callNamed position []) (literal (.atomic a))) s').1).evaluate c access = .ok p ∧
        p.Provides h u items none := by
  have provides {p : Producer} {w : Nat} {vs : List Value} (hp : p.Runs h n w b.courses (vs, none)) :
      p.Provides h u vs none := by
    obtain ⟨t, hy, -⟩ := hp.yields (hb.anti (Nat.le_refl n))
    exact hy.provides hu
  have hplace (i : Nat) (hi : i < xs.length) :
      (Verdict.position (Verdict.place a)).keeps (i + 1) ↔ a.number? = some ((i + 1 : Nat) : ℚ) := by
    rw [Verdict.keeps, beq_iff_eq, Atomic.place_eq_some hnum hspace hkeeps (by omega), Int.cast_natCast]
  refine ⟨_, Verdict.selects_select (fun _ => .position (Verdict.place a)) hplace, ?_, ?_⟩
  · obtain ⟨p, hp, hrun⟩ := filter_literal_runs static fuel s hnotes hsel
      (hruns.mono (Nat.le_of_lt hr)) hnum
    exact ⟨p, hp, provides hrun⟩
  · obtain ⟨p, hp, hrun⟩ := filter_positionIs_runs fuel s' hnotes hsel hr hruns hposition hnum
      hspace hlength
    refine ⟨p, hp, ?_⟩
    rw [Verdict.select_congr fun i hi => ?_]
    · exact provides hrun
    · rw [Bool.eq_iff_iff, hplace i hi]
      exact decide_eq_true_iff.symm

/-- Literals one after the other. -/
theorem literals_runs (vs : List Value) (c : Context) (access : Access) :
    ∃ p, (operator .sequence (vs.map literal)).evaluate c access = .ok p ∧
      ∀ h n Ψ, p.Runs h n 0 Ψ (vs, none) := by
  refine ⟨_, rfl, fun h n Ψ => ?_⟩
  induction vs generalizing Ψ with
  | nil => exact .done 0
  | cons v vs ih =>
    have hfirst : (Producer.deferred fun _ => (literal v).evaluate c access).Runs h n 0 Ψ ([v], none) :=
      .deferred (.ofList 0 [v])
    exact hfirst.append (k := fun _ => concat _) fun _ Ψ' _ => ih Ψ'

/-- The third of three integers, asked for as the decimal 3.0. -/
theorem filter_number_third :
    let int (i : Int) : Value := .integer i
    let sel := operator .sequence ([int 7, int 8, int 9].map literal)
    let third := Atomic.decimal ⟨false, 30, 1, by decide, by decide⟩
    let position : ExpandedName := ⟨some Uri.functions, "position"⟩
    (∃ p, (filter sel (prepare .standard 2 (literal (.atomic third)) .empty).1).evaluate .empty .live = .ok p ∧
        p.Provides .absent .empty [int 9] none) ∧
      ∃ p, (filter sel (prepare .standard 2
          (comparison .eq (callNamed position []) (literal (.atomic third))) .empty).1).evaluate .empty .live =
        .ok p ∧ p.Provides .absent .empty [int 9] none := by
  intro int sel third position
  let b : Account := ⟨.empty, fun _ => none, fun _ => 0⟩
  have hb : b.OnCourse .absent 1 := fun c r o hc => by cases hc
  obtain ⟨selected, hsel, hruns⟩ := literals_runs [int 7, int 8, int 9] .empty .live
  have hvalue : third.number? = some ((3 : Int) : ℚ) := by
    show some (Decimal.value _) = _
    rw [Decimal.value, withSign, if_neg (by decide)]
    norm_num
  have hkeeps : third.KeepsFraction := fun d i hd _ => by
    cases hd
    exact ⟨3, Option.some.inj hvalue⟩
  obtain ⟨items, hselects, hliteral, hcompared⟩ := filter_number (a := third) (u := .empty) rfl hb Nat.one_pos hsel
    (hruns .absent 0 _) (show [int 7, int 8, int 9].length < 2 ^ 53 by decide)
    (show Notes.blank.cached? = none from rfl)
    (show StaticContext.standard.functions.lookup position 0 = some (.builtin .position) from rfl) rfl trivial
    hkeeps 2 .empty .empty
  have hitems : items = [int 9] := by
    obtain ⟨i, v, hv, hi, rfl⟩ | ⟨hnone, -⟩ := hselects
    · have hthird : ((3 : Int) : ℚ) = ((i + 1 : Nat) : ℚ) := Option.some.inj (hvalue.symm.trans hi)
      obtain rfl : i = 2 := by
        have : (3 : Nat) = i + 1 := by exact_mod_cast hthird
        omega
      cases hv
      rfl
    · exact absurd hvalue (hnone 2 (by decide))
  subst hitems
  exact ⟨hliteral, hcompared⟩

/-- The decimal 2.00000000000000000001 is not two, but its double is. -/
theorem filter_number_lostFraction :
    let int (i : Int) : Value := .integer i
    let sel := operator .sequence ([int 1, int 2, int 3].map literal)
    let beyond := Atomic.decimal ⟨false, 200000000000000000001, 20, by decide, by decide⟩
    let position : ExpandedName := ⟨some Uri.functions, "position"⟩
    beyond.Selects [int 1, int 2, int 3] [] ∧
      (∃ p, (filter sel (prepare .standard 2 (literal (.atomic beyond)) .empty).1).evaluate .empty .live = .ok p ∧
        p.Provides .absent .empty [int 2] none) ∧
      ∃ p, (filter sel (prepare .standard 2
          (comparison .eq (callNamed position []) (literal (.atomic beyond))) .empty).1).evaluate .empty .live =
        .ok p ∧ p.Provides .absent .empty [] none := by
  intro int sel beyond position
  let b : Account := ⟨.empty, fun _ => none, fun _ => 0⟩
  have hb : b.OnCourse .absent 1 := fun c r o hc => by cases hc
  have provides {p : Producer} {w : Nat} {vs : List Value} (hp : p.Runs .absent 1 w b.courses (vs, none)) :
      p.Provides .absent .empty vs none := by
    obtain ⟨t, hy, -⟩ := hp.yields hb
    exact hy.provides rfl
  have hnone (i : Nat) : beyond.number? ≠ some (i : ℚ) := by
    intro h
    have hvalue : Decimal.value _ = (i : ℚ) := Option.some.inj h
    rw [Decimal.value, withSign, if_neg (by decide), div_eq_iff (by norm_num)] at hvalue
    have hnat : 200000000000000000001 = i * 10 ^ 20 := by exact_mod_cast hvalue
    omega
  obtain ⟨selected, hsel, hruns⟩ := literals_runs [int 1, int 2, int 3] .empty .live
  refine ⟨.inr ⟨fun i _ => hnone (i + 1), rfl⟩, ?_, ?_⟩
  · obtain ⟨p, hp, hrun⟩ := filter_literal_runs (a := beyond) .standard 2 .empty
      (show Notes.blank.cached? = none from rfl) hsel (hruns .absent 1 b.courses) rfl
    have hplace : Verdict.place beyond = some 2 := by decide +kernel
    rw [hplace] at hrun
    exact ⟨p, hp, provides hrun⟩
  · obtain ⟨p, hp, hrun⟩ := filter_positionIs_runs (a := beyond) 2 .empty
      (show Notes.blank.cached? = none from rfl) hsel Nat.one_pos (hruns .absent 0 b.courses)
      (show StaticContext.standard.functions.lookup position 0 = some (.builtin .position) from rfl) rfl trivial
      (by decide)
    refine ⟨p, hp, ?_⟩
    have hdrop : Verdict.select (fun i => .truth (decide (beyond.number? = some (i : ℚ))))
        [int 1, int 2, int 3] = [] := by
      simp only [decide_eq_false (hnone _)]
      exact Verdict.select_of_keeps_none (fun _ h => by cases h) _
    rw [hdrop] at hrun
    exact provides hrun

end Expr

end XPath
