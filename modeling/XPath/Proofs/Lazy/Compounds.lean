import XPath.Library.Arguments
import XPath.Proofs.Lazy.CellCourses

/-!
# Courses of compound producers

On which course a combinator runs when its parts run on theirs. Budgets add up; reading what is shared
costs nothing, since the cells have budgets of their own.
-/

namespace XPath

open Producer

variable {h : Host} {n w w' : Nat} {Ψ Ψ' : Courses} {p : Producer} {o o' : Course}
  {e : Option Error} {v : Value} {vs : List Value}

namespace Producer.Runs

/-! ## One producer after the other -/

theorem done (w : Nat) : Producer.done.Runs h n w Ψ ([], none) :=
  runs_iff.2 fun _ _ ha => ⟨_, _, _, .refl ha w, .done, .finish⟩

theorem fail {e : Error} (w : Nat) : (Producer.fail e).Runs h n w Ψ ([], some e) :=
  runs_iff.2 fun _ _ ha => ⟨_, _, _, .refl ha w, .fail, .failed⟩

theorem emit (hp : p.Runs h n w Ψ (vs, e)) : (Producer.emit v p).Runs h n w Ψ (v :: vs, e) :=
  runs_iff.2 fun _ hΨ ha => ⟨_, _, _, .refl ha w, .emit, .item (hp.extend hΨ)⟩

theorem ofList (w : Nat) (vs : List Value) : (Producer.ofList vs).Runs h n w Ψ (vs, none) := by
  induction vs with
  | nil => exact done w
  | cons v vs ih => exact emit ih

theorem ofItem (w : Nat) (x : Except Error Value) :
    (match x with | .ok v => Producer.singleton v | .error e => .fail e).Runs h n w Ψ
      (Course.ofItem x) := by
  cases x with
  | ok v => exact ofList w [v]
  | error e => exact fail w

theorem append {k : Unit → Producer} (hp : p.Runs h n w Ψ o)
    (hk : o.2 = none → ∀ Ψ', Ψ.Extends Ψ' → (k ()).Runs h n w' Ψ' o') :
    (Producer.append p k).Runs h n (w + w') Ψ (o.andThen o') := by
  obtain ⟨vs, e⟩ := o
  induction vs generalizing p w Ψ with
  | nil =>
    refine runs_iff.2 fun a hΨ ha => ?_
    obtain ⟨x, b, w₁, hl, hd, hx⟩ := hp.proceeds hΨ ha
    generalize ho : (([] : List Value), e) = o at hx
    cases hx with
    | item => cases ho
    | finish =>
      cases ho
      have hrest := (hk rfl _ (hΨ.trans hl.moves.keeps)).le (Nat.le_add_left w' w₁)
      exact (hrest.proceeds (.refl _) hl.onCourse).onward (hl.add w') (.append_finish hd)
    | failed =>
      cases ho
      exact ⟨_, b, _, hl.add w', .append_failed hd, .failed⟩
  | cons v vs ih =>
    rw [Course.cons_andThen]
    refine runs_iff.2 fun a hΨ ha => ?_
    obtain ⟨x, b, w₁, hl, hd, hx⟩ := hp.proceeds hΨ ha
    cases hx with
    | item hq =>
      have hrest := ih hq fun he Ψ₂ hΨ₂ => hk he Ψ₂ ((hΨ.trans hl.moves.keeps).trans hΨ₂)
      exact ⟨_, b, _, hl.add w', .append_item hd, .item hrest⟩

theorem deferred {build : Unit → Except Error Producer}
    (hb : (ofExcept (build ())).Runs h n w Ψ o) : (Producer.deferred build).Runs h n w Ψ o := by
  have hrun := append (k := fun u => ofExcept (build u)) (done 0) fun _ _ hΨ => hb.extend hΨ
  rwa [Nat.zero_add] at hrun

/-- For every item what it gives rise to. -/
theorem forEach {i : Nat} {body : Nat → Value → Producer} {g : Value → Course}
    (hp : p.Runs h n w Ψ (vs, e))
    (hb : ∀ v ∈ vs, ∀ i Ψ', Ψ.Extends Ψ' → (body i v).Runs h n 0 Ψ' (g v)) :
    (Producer.forEach i p body fun _ => .done).Runs h n w Ψ (Course.flatMap g vs e) := by
  induction vs generalizing p i w Ψ with
  | nil =>
    refine runs_iff.2 fun a hΨ ha => ?_
    obtain ⟨x, b, w₁, hl, hd, hx⟩ := hp.proceeds hΨ ha
    generalize ho : (([] : List Value), e) = o at hx
    cases hx with
    | item => cases ho
    | finish =>
      cases ho
      exact ⟨_, b, w₁, hl, .forEach_finish hd .done, .finish⟩
    | failed =>
      cases ho
      exact ⟨_, b, w₁, hl, .forEach_failed hd, .failed⟩
  | cons v vs ih =>
    refine runs_iff.2 fun a hΨ ha => ?_
    obtain ⟨x, b, w₁, hl, hd, hx⟩ := hp.proceeds hΨ ha
    cases hx with
    | @item v q _ _ hq =>
      have hΨ₁ := hΨ.trans hl.moves.keeps
      have hrest : ∀ Ψ₂, b.courses.Extends Ψ₂ → Runs h n w₁ Ψ₂
          (.forEach (i + 1) q body fun _ => .done) (Course.flatMap g vs e) := fun Ψ₂ hΨ₂ =>
        ih (hq.extend hΨ₂) fun u hu i Ψ₃ hΨ₃ =>
          hb u (List.mem_cons_of_mem _ hu) i Ψ₃ ((hΨ₁.trans hΨ₂).trans hΨ₃)
      have hrun := append (k := fun _ => .forEach (i + 1) q body fun _ => .done)
        (hb v List.mem_cons_self i b.courses hΨ₁) fun _ => hrest
      rw [Nat.zero_add] at hrun
      exact (hrun.proceeds (.refl _) hl.onCourse).onward hl (.forEach_item hd)

theorem flatMap {body : Value → Producer} {g : Value → Course} (hp : p.Runs h n w Ψ (vs, e))
    (hb : ∀ v ∈ vs, ∀ Ψ', Ψ.Extends Ψ' → (body v).Runs h n 0 Ψ' (g v)) :
    (Producer.flatMap p body).Runs h n w Ψ (Course.flatMap g vs e) :=
  forEach hp fun v hv _ Ψ' hΨ => hb v hv Ψ' hΨ

theorem mapItems {f : Value → Except Error Value} (hp : p.Runs h n w Ψ (vs, e)) :
    (Producer.mapItems p f).Runs h n w Ψ (Course.flatMap (fun v => .ofItem (f v)) vs e) :=
  flatMap hp fun v _ _ _ => ofItem 0 (f v)

/-- All items are drawn before the rest goes on with them. -/
theorem drain {next : List Value → Producer} {g : List Value → Course} (hp : p.Runs h n w Ψ o)
    (hnext : o.2 = none → ∀ Ψ', Ψ.Extends Ψ' → (next o.1).Runs h n w' Ψ' (g o.1)) :
    (Producer.drain p next).Runs h n (w + w') Ψ (o.bind g) := by
  obtain ⟨vs, e⟩ := o
  suffices ∀ {i kept p w Ψ us}, p.Runs h n w Ψ (us, e) → kept.reverse ++ us = vs →
      (e = none → ∀ Ψ', Ψ.Extends Ψ' → (next vs).Runs h n w' Ψ' (g vs)) →
      (Producer.gather (fun _ kept v => .more (v :: kept)) i kept p fun kept =>
        next kept.reverse).Runs h n (w + w') Ψ (Course.bind (vs, e) g) from
    this hp rfl hnext
  intro i kept p w Ψ us hp hkept hnext
  induction us generalizing i kept p w Ψ with
  | nil =>
    rw [List.append_nil] at hkept
    refine runs_iff.2 fun a hΨ ha => ?_
    obtain ⟨x, b, w₁, hl, hd, hx⟩ := hp.proceeds hΨ ha
    generalize ho : (([] : List Value), e) = o at hx
    cases hx with
    | item => cases ho
    | finish =>
      cases ho
      have hrest := (hnext rfl _ (hΨ.trans hl.moves.keeps)).le (Nat.le_add_left w' w₁)
      rw [← hkept] at hrest ⊢
      exact (hrest.proceeds (.refl _) hl.onCourse).onward (hl.add w') fun hd' =>
        .gather_finish (k := fun kept => next kept.reverse) hd hd'
    | failed =>
      cases ho
      exact ⟨_, b, _, hl.add w', .gather_failed hd, .failed⟩
  | cons v us ih =>
    refine runs_iff.2 fun a hΨ ha => ?_
    obtain ⟨x, b, w₁, hl, hd, hx⟩ := hp.proceeds hΨ ha
    cases hx with
    | item hq =>
      have hkept' : (v :: kept).reverse ++ us = vs := by simpa using hkept
      have hrest := ih (i := i + 1) hq hkept' fun he Ψ₂ hΨ₂ =>
        hnext he Ψ₂ ((hΨ.trans hl.moves.keeps).trans hΨ₂)
      exact (hrest.proceeds (.refl _) hl.onCourse).onward (hl.add w') (.gather_more hd rfl)

/-- What the first item leads to. -/
theorem first {next : Option Value → Producer} (hp : p.Runs h n w Ψ (v :: vs, e))
    (hnext : ∀ Ψ', Ψ.Extends Ψ' → (next (some v)).Runs h n w' Ψ' o) :
    (Producer.first p next).Runs h n (w + w') Ψ o := by
  refine runs_iff.2 fun a hΨ ha => ?_
  obtain ⟨x, b, w₁, hl, hd, hx⟩ := hp.proceeds hΨ ha
  cases hx with
  | item hq =>
    have hrest := (hnext _ (hΨ.trans hl.moves.keeps)).le (Nat.le_add_left w' w₁)
    exact (hrest.proceeds (.refl _) hl.onCourse).onward (hl.add w') fun hd' =>
      .gather_enough (k := fun kept => next kept.head?) hd rfl hd'

theorem withFirst {next : List (Option Value) → Reply} {k : Nat} (hp : p.Runs h n w Ψ (v :: vs, e))
    (hnext : ∀ Ψ', Ψ.Extends Ψ' → (ofExcept (next [some v])).Runs h n k Ψ' o) :
    (XPath.withFirsts [p] next).Runs h n (w + k) Ψ o :=
  show (Producer.first p fun v => ofExcept (next [v])).Runs h n (w + k) Ψ o from first hp hnext

theorem withAll {next : List Value → Reply} {g : List Value → Course} {k : Nat}
    (hp : p.Runs h n w Ψ o)
    (hnext : o.2 = none → ∀ Ψ', Ψ.Extends Ψ' → (ofExcept (next o.1)).Runs h n k Ψ' (g o.1)) :
    (XPath.withAll p next).Runs h n (w + k) Ψ (o.bind g) := drain hp hnext

/-! ## Waiting and counting -/

theorem pause (hp : p.Runs h n w Ψ o) : (Producer.pause p).Runs h n w Ψ o := hp.as .pause

theorem tick (hp : p.Runs h n w Ψ o) : (Producer.tick p).Runs h n (w + 1) Ψ o := by
  refine runs_iff.2 fun a hΨ ha => ?_
  have hl : a.Leads h n ⟨a.session.tick, a.courses, a.budgets⟩ (w + 1) w := by
    refine ⟨⟨.refl _, ?_, fun _ _ _ => ⟨rfl, rfl⟩, Nat.le_refl _⟩, ha, ?_⟩
    · intro c r o hn hc
      cases hn.symm.trans hc
    · simp only [Account.bound, Session.tick]
      omega
  exact (hp.proceeds (a := ⟨a.session.tick, a.courses, a.budgets⟩) hΨ hl.onCourse).onward hl .tick

/-! ## Asking the host -/

theorem perform {α : Type} {access : Access} {task : Task α} {next : α → Producer}
    (hok : ∀ a, task.run (access.host h) = .ok a → (next a).Runs h n w Ψ o)
    (herror : ∀ e, task.run (access.host h) = .error e → o = ([], some e)) :
    (Producer.perform access task next).Runs h n w Ψ o := by
  induction task with
  | pure a => exact (hok a rfl).as id
  | fail e =>
    rw [herror e rfl]
    exact fail w
  | ask q k ih =>
    cases access with
    | detached =>
      rw [herror Host.noDocument rfl]
      exact fail w
    | live =>
      rw [Access.host] at hok herror ih
      simp only [Task.run] at hok herror
      cases ha : h.answer q with
      | ok a =>
        simp only [ha] at hok herror
        exact (ih a hok herror).as fun hd => .ask (k := fun a => .perform .live (k a) next) ha hd
      | error e =>
        simp only [ha] at herror
        rw [herror e rfl]
        exact runs_iff.2 fun a _ hon => ⟨_, a, w, .refl hon w, .ask_failed ha, .failed⟩

/-! ## Reading -/

theorem fetch {shared : Shared} {i : Nat} {k : Option Value → Producer} (ho : o.Is n Ψ shared)
    (hitem : ∀ v, o.1[i]? = some v → (k (some v)).Runs h n w Ψ o')
    (hfinish : o.1[i]? = none → o.2 = none → (k none).Runs h n w Ψ o')
    (hfailed : ∀ e, o.1[i]? = none → o.2 = some e → o' = ([], some e)) :
    (Producer.fetch shared i k).Runs h n w Ψ o' := by
  refine runs_iff.2 fun a hΨ ha => ?_
  have hmore : ∀ {b}, a.Leads h n b 0 0 → a.Leads h n b w w := fun hl => by simpa using hl.add w
  have hfinds := ha.finds (i := i) (ho.mono (Nat.le_refl n) hΨ)
  cases hfinds with
  | item hv hl hread =>
    have hrun := (hitem _ hv).proceeds (hΨ.trans hl.moves.keeps) hl.onCourse
    exact hrun.onward (hmore hl) hread.fetch
  | finish hv he hl hread =>
    have hrun := (hfinish hv he).proceeds (hΨ.trans hl.moves.keeps) hl.onCourse
    exact hrun.onward (hmore hl) hread.fetch
  | @failed e b hv he hl hread =>
    rw [hfailed e hv he]
    exact ⟨_, b, w, hmore hl, hread k, .failed⟩

theorem call {c : Call} (hc : c.body.Runs h n w Ψ o) : (Producer.call c).Runs h n w Ψ o :=
  hc.as .call

theorem read {c i : Nat} (ho : o.Is n Ψ (.cell c)) :
    (Producer.call (.read c i)).Runs h n 0 Ψ (o.1.drop i, o.2) := by
  obtain ⟨vs, hvs⟩ : ∃ vs, o.1.drop i = vs := ⟨_, rfl⟩
  rw [hvs]
  have hget : o.1[i]? = vs.head? := by rw [← hvs, List.head?_drop]
  induction vs generalizing i with
  | nil =>
    refine call (fetch ho (fun v hv => ?_) (fun _ he => ?_) fun e _ he => ?_)
    · rw [hget] at hv
      cases hv
    · rw [he]
      exact done 0
    · rw [he]
  | cons v vs ih =>
    refine call (fetch ho (fun u hu => ?_) (fun hu => ?_) fun e hu => ?_)
    · rw [hget] at hu
      cases hu
      have htail : o.1.drop (i + 1) = vs := by rw [← List.tail_drop, hvs]; rfl
      exact emit (ih htail (by rw [← htail, List.head?_drop]))
    · rw [hget] at hu
      cases hu
    · rw [hget] at hu
      cases hu

theorem reader {shared : Shared} (ho : o.Is n Ψ shared) :
    (Producer.reader shared).Runs h n 0 Ψ o := by
  cases ho with
  | cell hc hr => exact read (i := 0) (.cell hc hr)
  | listed => exact ofList 0 _

/-! ## Sharing -/

theorem share {k : Shared → Producer} {r : Nat} (hr : r < n) (hp : p.Runs h r w Ψ o)
    (hk : ∀ Ψ' c, Ψ.Extends Ψ' → Ψ' c = some (r, o) → (k (.cell c)).Runs h n w' Ψ' o') :
    (Producer.share p k).Runs h n (w + w') Ψ o' := by
  refine runs_iff.2 fun a hΨ ha => ?_
  obtain ⟨hl, hnew⟩ := ha.allocate hr (hp.extend hΨ)
  have hrun := hk _ _ (hΨ.trans hl.moves.keeps) hnew
  have hl' := hl.add w'
  rw [Nat.zero_add] at hl'
  exact (hrun.proceeds (.refl _) hl.onCourse).onward hl' .share

end Producer.Runs

/-! ## Atomizing -/

/-- What stands for an item where arrays are flattened. -/
def flattened : Value → Producer
  | .array members => .call (.leaves members)
  | v => .singleton v

variable {m : Nat} {l : Nat → Course}

/-- The value can be flattened, whatever else has a course. -/
def Value.Flattens (h : Host) (n : Nat) (Ψ : Courses) (l : Nat → Course) (v : Value) : Prop :=
  ∀ Ψ', Ψ.Extends Ψ' → (flattened v).Runs h n 0 Ψ' (v.leaves l)

/-- The course of a sequence of items that can be flattened, and what it comes to then. -/
def Course.Leaves (h : Host) (n : Nat) (Ψ : Courses) (l : Nat → Course) (o o' : Course) : Prop :=
  (∀ v ∈ o.1, v.Flattens h n Ψ l) ∧ o' = Course.flatMap (Value.leaves l) o.1 o.2

theorem Producer.Runs.flatten (hp : p.Runs h n w Ψ o) (ho : o.Leaves h n Ψ l o') :
    (Producer.flatten p).Runs h n w Ψ o' := by
  rw [ho.2]
  exact Producer.Runs.flatMap hp fun v hv Ψ' hΨ => (ho.1 v hv Ψ' hΨ).as id

/-- Members of an array are read one after the other. -/
theorem Producer.Runs.readers {members : List Shared}
    (hm : ∀ s ∈ members, ∃ o : Course, o.Is n Ψ s ∧ o.Leaves h n Ψ l (s.leaves l)) :
    ∃ o : Course, (Producer.readers members).Runs h n 0 Ψ o ∧
      o.Leaves h n Ψ l (Course.concat (members.map (Shared.leaves l))) := by
  induction members with
  | nil => exact ⟨([], none), .done 0, nofun, rfl⟩
  | cons s ms ih =>
    obtain ⟨o, ho, hv, hleaves⟩ := hm s List.mem_cons_self
    obtain ⟨o', hrun, hv', hleaves'⟩ := ih fun s hs => hm s (List.mem_cons_of_mem _ hs)
    refine ⟨o.andThen o', ?_, fun v hmem => (Course.mem_andThen hmem).elim (hv v) (hv' v), ?_⟩
    · exact Producer.Runs.append (k := fun _ => .readers ms) (.reader ho) fun _ _ hΨ => hrun.extend hΨ
    · rw [List.map_cons, Course.concat, hleaves, hleaves', Course.flatMap_andThen]

mutual

theorem Value.Within.flattens_of_cells (hk : Ψ.Know n m l)
    (hcells : ∀ c < m, ∀ v : Value, v.Within c → v.Flattens h n Ψ l) {v : Value} :
    v.Within m → v.Flattens h n Ψ l
  | .atomic | .node | .map | .function => fun _ _ => by
    simp only [Value.leaves]
    exact .ofList 0 [_]
  | .array hm => fun Ψ' hΨ => by
    rw [Value.leaves_array]
    obtain ⟨o, hrun, ho⟩ := Producer.Runs.readers fun s hs => (hm s hs).leaves_of_cells hk hcells
    exact .call ((hrun.flatten ho).extend hΨ)

theorem Shared.Within.leaves_of_cells (hk : Ψ.Know n m l)
    (hcells : ∀ c < m, ∀ v : Value, v.Within c → v.Flattens h n Ψ l) {s : Shared} :
    s.Within m → ∃ o : Course, o.Is n Ψ s ∧ o.Leaves h n Ψ l (s.leaves l)
  | .listed hv => by
    rw [Shared.leaves_listed]
    exact ⟨_, .listed, fun v hmem => (hv v hmem).flattens_of_cells hk hcells, rfl⟩
  | .cell hc => by
    obtain ⟨r, o, ho, hr, hv, hl⟩ := hk _ hc
    rw [Shared.leaves]
    exact ⟨o, .cell ho hr, fun v hmem => hcells _ hc v (hv v hmem), hl⟩

end

/-- Values of cells with known courses can be flattened. -/
theorem Value.Within.flattens (hk : Ψ.Know n m l) (hv : v.Within m) : v.Flattens h n Ψ l := by
  induction m using Nat.strongRecOn generalizing v with
  | ind m ih =>
    refine hv.flattens_of_cells hk fun c hc v hv => ih c hc (fun c' hc' => ?_) hv
    exact hk c' (Nat.lt_trans hc' hc)

theorem Producer.Runs.atomize {access : Access} (hk : Ψ.Know n m l) (hv : ∀ v ∈ o.1, v.Within m)
    (hp : p.Runs h n w Ψ o) :
    (Producer.atomize access p).Runs h n w Ψ (o.atomized (access.host h) l) := by
  have hleaves : o.Leaves h n Ψ l (Course.flatMap (Value.leaves l) o.1 o.2) :=
    ⟨fun v hmem => (hv v hmem).flattens hk, rfl⟩
  refine Producer.Runs.flatMap (hp.flatten hleaves) fun v _ Ψ' _ => ?_
  unfold Value.atom
  refine .perform (fun a ha => ?_) fun e he => ?_
  · rw [ha]
    exact .ofList 0 [_]
  · rw [he]

end XPath
