import XPath.Expr.Filter
import XPath.Library.Functions
import XPath.Proofs.Lazy.Provision

/-!
# Filtering by position and by truth

A predicate is read up to what decides it, and its verdict is that of all its items
(`Verdict.Leads`, `Producer.Runs.leads`). A filter that evaluates its predicate for every item keeps the
items whose own verdict keeps them, and the one that evaluates a constant once keeps the same
(`Meaning.filter_paths`). Of its selector the latter draws no more than up to the position that is
asked for.
-/

namespace XPath

open Producer

variable {h : Host} {n w k : Nat} {Ψ : Courses} {a b : Account} {p selected : Producer}
  {s t u : Session} {xs ps : List Value} {v : Value} {o : Course} {verdict : Verdict}

/-! ## Verdicts -/

namespace Verdict

/-- The items that are kept, each by the verdict at its position. -/
def select (verdicts : Nat → Verdict) (xs : List Value) : List Value :=
  (xs.zipIdx.filter fun x => (verdicts (x.2 + 1)).keeps (x.2 + 1)).map (·.1)

/-- The verdict of a predicate leads from one session to another, whatever is done with it. -/
def Leads (h : Host) (predicate : Producer) (s : Session) (verdict : Verdict) (t : Session) : Prop :=
  ∀ next d u, Draws h (next verdict) t d u → Draws h (read predicate next) s d u

theorem ofItems_of_decided (hv : isDecidedBy v) : ofItems (v :: ps) = ofItems [v] := by
  cases v with
  | node => rfl
  | atomic a => simp [ofItems, show a.isNumeric = true from hv]
  | _ => cases hv

/-- A second item makes a predicate fail if the first one decides nothing. -/
theorem ofItems_of_not_decided {v' : Value} (hv : ¬isDecidedBy v) :
    ofItems (v :: v' :: ps) = .error manyItems := by
  cases v with
  | node => exact absurd rfl hv
  | atomic a =>
    rw [ofItems, if_neg (show ¬a.isNumeric from hv)]
    rfl
  | _ => rfl

end Verdict

/-- What decides a predicate is drawn, and no more. -/
theorem Producer.Runs.leads (hp : p.Runs h n k Ψ (ps, none)) (hv : Verdict.ofItems ps = .ok verdict)
    (hΨ : Ψ.Extends a.courses) (ha : a.OnCourse h n) :
    ∃ b k', a.Leads h n b k k' ∧ Verdict.Leads h p a.session verdict b.session := by
  obtain ⟨x, b, k₁, hl, hd, hx⟩ := hp.proceeds hΨ ha
  rcases ps with _ | ⟨v, ps⟩
  · cases hx
    refine ⟨b, k₁, hl, fun next d u hnext => .gather_finish hd ?_⟩
    rw [List.reverse_nil, hv]
    exact hnext
  · cases hx with
    | item hq =>
    by_cases hdec : Verdict.isDecidedBy v
    · have hv' : Verdict.ofItems [v] = .ok verdict := Verdict.ofItems_of_decided hdec ▸ hv
      have henough : Verdict.step [] v = .enough [v] := by simp [Verdict.step, hdec]
      refine ⟨b, k₁, hl, fun next d u hnext => .gather_enough hd henough ?_⟩
      rw [List.reverse_singleton, hv']
      exact hnext
    · have hmore : Verdict.step [] v = .more [v] := by simp [Verdict.step, hdec]
      obtain ⟨y, b', k₂, hl', hd', hy⟩ := hq.proceeds (.refl _) hl.onCourse
      rcases ps with _ | ⟨v', ps⟩
      · cases hy
        refine ⟨b', k₂, hl.trans hl', fun next d u hnext =>
          .gather_more hd hmore (.gather_finish hd' ?_)⟩
        rw [List.reverse_singleton, hv]
        exact hnext
      · cases (Verdict.ofItems_of_not_decided hdec).symm.trans hv

/-! ## Keeping items -/

namespace Producer.Runs

/-- The verdict of a predicate, and then what is done with it. -/
theorem readVerdict {next : Verdict → Producer} (hp : p.Runs h n k Ψ (ps, none))
    (hv : Verdict.ofItems ps = .ok verdict)
    (hnext : ∀ Ψ', Ψ.Extends Ψ' → (next verdict).Runs h n w Ψ' o) :
    (Verdict.read p next).Runs h n (k + w) Ψ o := by
  refine runs_iff.2 fun a hΨ ha => ?_
  obtain ⟨b, k', hl, hread⟩ := hp.leads hv hΨ ha
  have hrest := (hnext _ (hΨ.trans hl.moves.keeps)).le (Nat.le_add_left w k')
  exact (hrest.proceeds (.refl _) hl.onCourse).onward (hl.add w) (hread next _ _)

/-- The item at a position, if there is one. -/
theorem atPosition {m : Nat} (hp : p.Runs h n w Ψ (xs, none)) :
    (Meaning.atPosition p (some (m + 1 : Nat))).Runs h n w Ψ (xs[m]?.toList, none) := by
  suffices ∀ i w Ψ p us, i ≤ m → p.Runs h n w Ψ (us, none) →
      (Producer.gather (fun i _ v => if i = m then .enough [v] else .more []) i [] p .ofList).Runs h n
        w Ψ (us[m - i]?.toList, none) from this 0 w Ψ p xs (Nat.zero_le m) hp
  intro i w Ψ p us hi hp
  induction us generalizing i w Ψ p with
  | nil =>
    refine runs_iff.2 fun a hΨ ha => ?_
    obtain ⟨x, b, w₁, hl, hd, hx⟩ := hp.proceeds hΨ ha
    cases hx
    exact ((ofList w₁ []).proceeds (.refl _) hl.onCourse).onward hl (.gather_finish hd)
  | cons v us ih =>
    refine runs_iff.2 fun a hΨ ha => ?_
    obtain ⟨x, b, w₁, hl, hd, hx⟩ := hp.proceeds hΨ ha
    cases hx with
    | item hq =>
    by_cases him : i = m
    · subst him
      rw [Nat.sub_self]
      exact ((ofList w₁ [v]).proceeds (.refl _) hl.onCourse).onward hl (.gather_enough hd (if_pos rfl))
    · have hget : (v :: us)[m - i]? = us[m - (i + 1)]? := by
        rw [show m - i = m - (i + 1) + 1 by omega, List.getElem?_cons_succ]
      rw [hget]
      exact ((ih (i + 1) w₁ _ _ (by omega) hq).proceeds (.refl _) hl.onCourse).onward hl
        (.gather_more hd (if_neg him))

/-- For every item and its index what they give rise to. -/
theorem forEach_indexed {body : Nat → Value → Producer} (part : Nat → Value → List Value) {i : Nat}
    {e : Option Error} (hp : p.Runs h n w Ψ (xs, e))
    (hb : ∀ j v Ψ', xs[j]? = some v → Ψ.Extends Ψ' →
      (body (i + j) v).Runs h n k Ψ' (part (i + j) v, none)) :
    (Producer.forEach i p body fun _ => .done).Runs h n (w + xs.length * k) Ψ
      ((xs.zipIdx i).flatMap fun x => part x.2 x.1, e) := by
  induction xs generalizing p i w Ψ with
  | nil =>
    refine runs_iff.2 fun a hΨ ha => ?_
    obtain ⟨x, b, w₁, hl, hd, hx⟩ := hp.proceeds hΨ ha
    rw [List.length_nil, Nat.zero_mul, Nat.add_zero]
    generalize ho : (([] : List Value), e) = o at hx
    cases hx with
    | item => cases ho
    | finish =>
      cases ho
      exact ⟨_, b, w₁, hl, .forEach_finish hd .done, .finish⟩
    | failed =>
      cases ho
      exact ⟨_, b, w₁, hl, .forEach_failed hd, .failed⟩
  | cons v xs ih =>
    refine runs_iff.2 fun a hΨ ha => ?_
    obtain ⟨x, b, w₁, hl, hd, hx⟩ := hp.proceeds hΨ ha
    cases hx with
    | @item v q _ _ hq =>
      have hΨ₁ := hΨ.trans hl.moves.keeps
      have hrest (Ψ₂ : Courses) (hΨ₂ : b.courses.Extends Ψ₂) :
          (Producer.forEach (i + 1) q body fun _ => .done).Runs h n (w₁ + xs.length * k) Ψ₂
            ((xs.zipIdx (i + 1)).flatMap fun x => part x.2 x.1, e) := by
        refine ih (hq.extend hΨ₂) fun j u Ψ₃ hu hΨ₃ => ?_
        have hbody := hb (j + 1) u Ψ₃ (by simpa using hu) ((hΨ₁.trans hΨ₂).trans hΨ₃)
        rwa [Nat.add_comm j 1, ← Nat.add_assoc] at hbody
      have hrun := append (k := fun _ => .forEach (i + 1) q body fun _ => .done)
        (hb 0 v b.courses (by simp) hΨ₁) fun _ => hrest
      rw [List.length_cons, Nat.succ_mul, show w + (xs.length * k + k) = w + (k + xs.length * k) by omega]
      have hleads := hl.add (k + xs.length * k)
      rw [show w₁ + (k + xs.length * k) = k + (w₁ + xs.length * k) by omega] at hleads
      exact (hrun.proceeds (.refl _) hl.onCourse).onward hleads (.forEach_item hd)

/-- The size of a sequence that comes to its end is found, whatever is known of it. -/
theorem lastPosition {shared : Shared} (hs : Course.Is n Ψ (xs, none) shared) :
    (XPath.lastPosition shared).Runs h n 0 Ψ ([.integer xs.length], none) := by
  refine runs_iff.2 fun a hΨ ha => ?_
  have hknown {m : Nat} (hl : a.session.length? shared = some m) (hm : m = xs.length) :
      (XPath.lastPosition shared).Proceeds h n 0 a ([.integer xs.length], none) := by
    refine ((ofList 0 [.integer xs.length]).proceeds hΨ ha).onward (.refl ha 0) fun hd => .length ?_
    rw [hl, hm]
    exact hd
  cases hs with
  | listed => exact hknown rfl rfl
  | @cell c r _ hc hr =>
    obtain ⟨⟨items, source, error⟩, hcell, vs, hvs, hrest⟩ := (ha c r _ (hΨ c _ hc)).2 hr
    rcases hrest with ⟨q, rfl, rfl, -⟩ | ⟨rfl, rfl, rfl⟩
    · have hdrain : (Producer.drain (.reader (.cell c)) fun items =>
          .singleton (.integer items.length)).Runs h n (0 + 0) Ψ ([.integer xs.length], none) :=
        drain (g := fun items => ([.integer items.length], none)) (reader (.cell hc hr))
          fun _ _ _ => ofList 0 [_]
      refine (hdrain.proceeds hΨ ha).onward (.refl ha 0) fun hd => .length ?_
      rw [Session.length?, hcell]
      exact hd
    · refine hknown (m := items.size) ?_ ?_
      · rw [Session.length?, hcell]
      · rw [List.append_nil] at hvs
        rw [show xs = items.toList from hvs, Array.length_toList]

end Producer.Runs

/-! ## Both ways of filtering -/

namespace Verdict

theorem select_eq_flatMap (verdicts : Nat → Verdict) (xs : List Value) :
    xs.zipIdx.flatMap (fun x => if (verdicts (x.2 + 1)).keeps (x.2 + 1) then [x.1] else []) =
      select verdicts xs := by
  rw [select]
  induction xs.zipIdx with
  | nil => rfl
  | cons x l ih =>
    rw [List.flatMap_cons, ih, List.filter_cons]
    split <;> simp

theorem select_true (xs : List Value) : select (fun _ => truth true) xs = xs := by
  have hall : xs.zipIdx.filter (fun x => (truth true).keeps (x.2 + 1)) = xs.zipIdx :=
    List.filter_eq_self.2 fun _ _ => rfl
  rw [select, hall, List.zipIdx_map_fst]

theorem select_of_keeps_none (hv : ∀ i, ¬verdict.keeps (i + 1)) (xs : List Value) :
    select (fun _ => verdict) xs = [] := by
  rw [select, List.filter_eq_nil_iff.2 (fun x _ => hv x.2), List.map_nil]

theorem select_position (m : Nat) (xs : List Value) :
    select (fun _ => position (some (m + 1 : Nat))) xs = xs[m]?.toList := by
  have hkeeps (i : Nat) : keeps (position (some (m + 1 : Nat))) (i + 1) = decide (m = i) := by
    rw [keeps, Bool.eq_iff_iff, beq_iff_eq, decide_eq_true_iff, Option.some.injEq]
    omega
  have hfrom (i : Nat) : (((xs.zipIdx i).filter fun x => decide (m = x.2)).map (·.1)) =
      if i ≤ m then xs[m - i]?.toList else [] := by
    induction xs generalizing i with
    | nil => simp
    | cons x xs ih =>
      rw [List.zipIdx_cons, List.filter_cons]
      by_cases hi : m = i
      · subst hi
        simp [ih, Nat.not_succ_le_self]
      · rw [if_neg (by simpa using hi), ih]
        by_cases hle : i + 1 ≤ m
        · rw [if_pos hle, if_pos (by omega), show m - i = m - (i + 1) + 1 by omega,
            List.getElem?_cons_succ]
        · rw [if_neg hle, if_neg (by omega)]
  simp only [select, hkeeps]
  rw [hfrom 0, if_pos (Nat.zero_le m), Nat.sub_zero]

/-- What a constant with the verdict makes of the selector. -/
def letThrough (verdict : Verdict) (selected : Producer) : Producer :=
  match verdict with
  | position place => Meaning.atPosition selected place
  | truth true => selected
  | truth false => .done

/-- A verdict lets everything through, or the item at one position, or nothing. -/
theorem letThrough_cases (verdict : Verdict) :
    verdict = truth true ∨ (∃ m : Nat, verdict = position (some (m + 1 : Nat))) ∨
      (∀ i, ¬verdict.keeps (i + 1)) ∧ ∀ selected, verdict.letThrough selected = .done := by
  rcases verdict with (_ | (_ | m) | m) | _ | _
  · exact .inr (.inr ⟨fun i => by simp [keeps], fun _ => rfl⟩)
  · exact .inr (.inr ⟨fun i => by simp [keeps]; omega, fun _ => rfl⟩)
  · exact .inr (.inl ⟨m, rfl⟩)
  · exact .inr (.inr ⟨fun i => by simp [keeps]; omega, fun _ => rfl⟩)
  · exact .inr (.inr ⟨fun i => by simp [keeps], fun _ => rfl⟩)
  · exact .inl rfl

end Verdict

namespace Meaning

theorem filterConstant_eq (selected p : Producer) :
    filterConstant selected p = Verdict.read p (·.letThrough selected) := rfl

/-- The item at a position is there as soon as it has been drawn, whatever would come after it. -/
theorem yields_atPosition {us : List Value} {q : Producer}
    (hb : Begins h selected s (us ++ [v]) q t) :
    Yields h (atPosition selected (some (us.length + 1 : Nat))) s [v] none t := by
  suffices ∀ i m, i + us.length = m → Yields h
      (gather (fun i _ v => if i = m then .enough [v] else .more []) i [] selected .ofList) s [v] none t from
    this 0 us.length (Nat.zero_add _)
  intro i m hi
  induction us generalizing i selected s with
  | nil =>
    cases hb with
    | item hd hb =>
      cases hb
      exact .imp (fun _ _ => .gather_enough hd (if_pos hi)) (.ofList [v] t)
  | cons w us ih =>
    rw [List.length_cons] at hi
    cases hb with
    | item hd hb =>
      exact .imp (fun _ _ => .gather_more hd (if_neg (by omega))) (ih hb (i + 1) (by omega))

theorem filterConstant_runs (hsel : selected.Runs h n w Ψ (xs, none))
    (hp : p.Runs h n k Ψ (ps, none)) (hv : Verdict.ofItems ps = .ok verdict) :
    (filterConstant selected p).Runs h n (k + w) Ψ (Verdict.select (fun _ => verdict) xs, none) := by
  rw [filterConstant_eq]
  refine hp.readVerdict hv fun Ψ' hΨ => ?_
  rcases verdict.letThrough_cases with rfl | ⟨m, rfl⟩ | ⟨hkeeps, hdone⟩
  · rw [Verdict.select_true]
    exact hsel.extend hΨ
  · rw [Verdict.select_position]
    exact (hsel.extend hΨ).atPosition
  · rw [Verdict.select_of_keeps_none hkeeps, hdone]
    exact .done w

theorem filterEach_runs {r : Nat} (hr : r < n) (hsel : selected.Runs h r w Ψ (xs, none)) {m : Meaning}
    {c : Context} {access : Access} (value : Nat → List Value) {verdicts : Nat → Verdict}
    (hvalue : ∀ i v, xs[i]? = some v → Verdict.ofItems (value (i + 1)) = .ok (verdicts (i + 1)))
    (hm : ∀ i v id Ψ', xs[i]? = some v → Ψ.Extends Ψ' → Ψ' id = some (r, (xs, none)) →
      ∃ p, m (c.withFocus (i + 1) v (.cell id)) access = .ok p ∧
        p.Runs h n k Ψ' (value (i + 1), none)) :
    (filterEach selected m c access).Runs h n (w + (0 + xs.length * (k + 0))) Ψ
      (Verdict.select verdicts xs, none) := by
  refine .share hr hsel fun Ψ' id hΨ hid => ?_
  rw [← Verdict.select_eq_flatMap]
  refine .forEach_indexed (fun i v => if (verdicts (i + 1)).keeps (i + 1) then [v] else [])
    (.reader (.cell hid hr)) fun i v Ψ₂ hv hΨ₂ => ?_
  rw [Nat.zero_add]
  obtain ⟨p, hp, hrun⟩ := hm i v id Ψ₂ hv (hΨ.trans hΨ₂) (hΨ₂ id _ hid)
  rw [hp]
  refine hrun.readVerdict (hvalue i v hv) fun Ψ₃ _ => ?_
  split
  · exact .ofList 0 [v]
  · exact .done 0

/-- A filter that evaluates its predicate for every item, in the focus of the item, provides the items
that the verdicts keep; in these foci `fn:position` and `fn:last` are the place of the item and the
number of all items. If the predicate is a constant, evaluating it once comes to the same. A constant
that asks for a position draws the items up to there from the selector, whatever would come after them,
and one that keeps nothing does not touch it. -/
theorem filter_paths {r : Nat} (hs : s.calm = a.session) (ha : a.OnCourse h n) (hr : r < n)
    (hsel : selected.Runs h r w a.courses (xs, none)) :
    (∀ (m : Meaning) (c : Context) (access : Access) (k : Nat) (value : Nat → List Value)
      (verdicts : Nat → Verdict),
      (∀ i v, xs[i]? = some v → Verdict.ofItems (value (i + 1)) = .ok (verdicts (i + 1))) →
      (∀ i v id Ψ, xs[i]? = some v → a.courses.Extends Ψ → Ψ id = some (r, (xs, none)) →
        ∃ p, m (c.withFocus (i + 1) v (.cell id)) access = .ok p ∧
          p.Runs h n k Ψ (value (i + 1), none)) →
      (filterEach selected m c access).Provides h s (Verdict.select verdicts xs) none) ∧
    (∀ (i : Nat) (v : Value) (id : Nat) (Ψ : Courses) (c : Context) (access : Access) (ns : Namespaces),
      Ψ id = some (r, (xs, none)) →
      let call : CallContext := ⟨c.withFocus (i + 1) v (.cell id), access, ns⟩
      (∃ p, Builtin.position.run call [] = .ok p ∧ p.Runs h n 0 Ψ ([.integer (i + 1 : Nat)], none)) ∧
        ∃ p, Builtin.last.run call [] = .ok p ∧ p.Runs h n 0 Ψ ([.integer xs.length], none)) ∧
    ∀ (ps : List Value) (verdict : Verdict) (k : Nat), Verdict.ofItems ps = .ok verdict →
      (∀ (m : Meaning) (c : Context) (access : Access),
        (∀ c', ∃ p, m c' access = .ok p ∧ p.Runs h n k a.courses (ps, none)) →
        ∃ p, m c access = .ok p ∧
          (filterConstant selected p).Provides h s (Verdict.select (fun _ => verdict) xs) none ∧
          (filterEach selected m c access).Provides h s (Verdict.select (fun _ => verdict) xs) none) ∧
      ∀ p, p.Runs h n k a.courses (ps, none) → ∃ t,
        (∀ (selected : Producer) us v q u, verdict = .position (some (us.length + 1 : Nat)) →
          Begins h selected t (us ++ [v]) q u →
          Yields h (filterConstant selected p) s.calm [v] none u) ∧
        ((∀ i, ¬verdict.keeps (i + 1)) →
          ∀ selected, Yields h (filterConstant selected p) s.calm [] none t) := by
  have provides {p : Producer} {w : Nat} {vs : List Value} (hp : p.Runs h n w a.courses (vs, none)) :
      p.Provides h s vs none := by
    obtain ⟨t, hy, -⟩ := hp.yields (ha.anti (Nat.le_refl n))
    exact hy.provides hs
  refine ⟨fun m c access k value verdicts hvalue hm => provides (filterEach_runs hr hsel value hvalue hm),
    fun i v id Ψ c access ns hid => ⟨⟨_, rfl, .ofList 0 [_]⟩, _, rfl, .lastPosition (.cell hid hr)⟩,
    fun ps verdict k hv => ⟨fun m c access hm => ?_, fun p hp => ?_⟩⟩
  · obtain ⟨p, hp, hrun⟩ := hm c
    refine ⟨p, hp, provides (filterConstant_runs (hsel.mono (Nat.le_of_lt hr)) hrun hv), ?_⟩
    refine provides (filterEach_runs (k := k) hr hsel (fun _ => ps) (fun _ _ _ => hv) ?_)
    intro i v id Ψ _ hΨ _
    obtain ⟨p, hp, hrun⟩ := hm (c.withFocus (i + 1) v (.cell id))
    exact ⟨p, hp, hrun.extend hΨ⟩
  · obtain ⟨b, k', hl, hread⟩ := hp.leads hv (.refl _) ha
    rw [hs]
    refine ⟨b.session, fun selected us v q u hpos hb => ?_, fun hkeeps selected => ?_⟩
    · rw [filterConstant_eq]
      subst hpos
      exact .imp (fun d t => hread _ d t) (yields_atPosition hb)
    · rcases verdict.letThrough_cases with rfl | ⟨m, rfl⟩ | ⟨-, hdone⟩
      · exact absurd rfl (hkeeps 0)
      · exact absurd (by simp [Verdict.keeps]) (hkeeps m)
      · rw [filterConstant_eq]
        refine .finish (hread _ _ _ ?_)
        rw [hdone]
        exact .done

/-- Three items with suspensions between them, filtered by `fn:last` and by the constant two; and two items
with an error after them, which the constant does not come to. -/
theorem filter_paths_last :
    let int (i : Int) : Value := .integer i
    let selected := pause (emit (int 5) (pause (ofList [int 6, int 7])))
    let last : Meaning := fun c access => Builtin.last.run ⟨c, access, .standard⟩ []
    (filterEach selected last .empty .live).Provides .absent .empty [int 7] none ∧
      (filterConstant selected (ofList [int 2])).Provides .absent .empty [int 6] none ∧
      ∃ u, Yields .absent (filterConstant (emit (int 5) (emit (int 6) (fail notPrepared))) (ofList [int 2]))
        Session.empty [int 6] none u := by
  intro int selected last
  let a : Account := ⟨.empty, fun _ => none, fun _ => 0⟩
  have ha : a.OnCourse .absent 1 := nofun
  have hsel : selected.Runs .absent 0 0 a.courses ([int 5, int 6, int 7], none) :=
    .pause (.emit (.pause (.ofList 0 _)))
  obtain ⟨heach, hfocus, hconstant⟩ := filter_paths (s := .empty) rfl ha Nat.one_pos hsel
  refine ⟨heach last .empty .live 0 (fun _ => [int 3]) (fun _ => .position (some 3)) (fun _ _ _ => rfl)
    fun i v id Ψ _ _ hid => (hfocus i v id Ψ .empty .live .standard hid).2, ?_⟩
  obtain ⟨honce, hpulls⟩ := hconstant [int 2] (.position (some 2)) 0 rfl
  obtain ⟨p, hp, hprovides, -⟩ := honce (fun _ _ => .ok (ofList [int 2])) .empty .live fun _ =>
    ⟨_, rfl, .ofList 0 _⟩
  cases hp
  refine ⟨hprovides, ?_⟩
  obtain ⟨t, hbegins, -⟩ := hpulls (ofList [int 2]) (.ofList 0 _)
  exact ⟨t, hbegins _ [int 5] (int 6) _ t rfl (.item .emit (.item .emit .nil))⟩

end Meaning

end XPath
