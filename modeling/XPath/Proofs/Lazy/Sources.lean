import Mathlib.Data.List.Forall2
import XPath.Proofs.Lazy.Compounds
import XPath.Proofs.Lazy.Readers

/-!
# Sources

A source is put together from listed items, errors and scripted functions by the combinators of lazy
sequences; it may read shared sequences, those it has put into cells itself and those of a store that
is loaded beforehand. What a source comes to is read off it as a course, without any machine, and
`Source.delivers_course` says that this is what a caller of `next` is given, whatever is suspended
meanwhile.
-/

namespace XPath

open Producer

/-! ## Scripts -/

/-- What one call of a scripted function comes to. -/
inductive Scripted where
  | item (v : Value)
  | pause
  | done
  | fail (e : Error)

namespace Scripted

/-- A call of the function, which is counted or not. -/
def call (counted : Bool) (p : Producer) : Producer := if counted then .tick p else p

/-- A function whose calls come to the steps, and to the end after the last one. -/
def producer (counted : Bool) : List Scripted → Producer
  | [] => call counted .done
  | item v :: steps => call counted (.emit v (producer counted steps))
  | pause :: steps => call counted (.pause (producer counted steps))
  | done :: _ => call counted .done
  | fail e :: _ => call counted (.fail e)

def course : List Scripted → Course
  | [] => ([], none)
  | item v :: steps => (v :: (course steps).1, (course steps).2)
  | pause :: steps => course steps
  | done :: _ => ([], none)
  | fail e :: _ => ([], some e)

/-- The number of calls up to the one that comes to the end or an error. -/
def calls : List Scripted → Nat
  | [] | done :: _ | fail _ :: _ => 1
  | item _ :: steps | pause :: steps => calls steps + 1

theorem mem_course {steps : List Scripted} {v : Value} (hv : v ∈ (course steps).1) :
    .item v ∈ steps := by
  induction steps with
  | nil => cases hv
  | cons step steps ih =>
    cases step with
    | item w =>
      rcases List.mem_cons.1 hv with rfl | hv
      · exact List.mem_cons_self
      · exact List.mem_cons_of_mem _ (ih hv)
    | pause => exact List.mem_cons_of_mem _ (ih hv)
    | done | fail => cases hv

end Scripted

/-! ## Sources -/

/-- The sequences that lazy combinators build. A shared sequence is read by its number among those in
scope. -/
inductive Source where
  | listed (items : List Value)
  | failed (e : Error)
  | script (counted : Bool) (steps : List Scripted)
  | append (first second : Source)
  | deferred (source : Source)
  | map (f : Value → Except Error Value) (source : Source)
  | mapAll (f : List Value → Source) (source : Source)
  | atomize (access : Access) (source : Source)
  /-- The rest with the source shared: it is the last one in scope there. -/
  | share (source rest : Source)
  | reader (number : Nat)

namespace Source

/-- The producer that the combinators build. -/
def producer (scope : List Shared) : Source → Producer
  | listed items => .ofList items
  | failed e => .fail e
  | script counted steps => Scripted.producer counted steps
  | append first second => .append (first.producer scope) fun _ => second.producer scope
  | deferred source => .deferred fun _ => .ok (source.producer scope)
  | map f source => .mapItems (source.producer scope) f
  | mapAll f source => withAll (source.producer scope) fun items => .ok ((f items).producer scope)
  | atomize access source => .atomize access (source.producer scope)
  | share source rest => .share (source.producer scope) fun s => rest.producer (scope ++ [s])
  | reader number =>
    match scope[number]? with
    | some s => .reader s
    | none => .done

/-- What a source comes to, given the courses of the sequences in scope and the leaves of the cells that
values are made of. -/
def course (h : Host) (leavesOf : Nat → Course) (scope : List Course) : Source → Course
  | listed items => (items, none)
  | failed e => ([], some e)
  | script _ steps => Scripted.course steps
  | append first second => (first.course h leavesOf scope).andThen (second.course h leavesOf scope)
  | deferred source => source.course h leavesOf scope
  | map f source =>
    let o := source.course h leavesOf scope
    Course.flatMap (fun v => .ofItem (f v)) o.1 o.2
  | mapAll f source =>
    (source.course h leavesOf scope).bind fun items => (f items).course h leavesOf scope
  | atomize access source => (source.course h leavesOf scope).atomized (access.host h) leavesOf
  | share source rest => rest.course h leavesOf (scope ++ [source.course h leavesOf scope])
  | reader number => scope[number]?.getD ([], none)

/-- How often counted functions are called if each is called up to its end or error. -/
def calls (h : Host) (leavesOf : Nat → Course) (scope : List Course) : Source → Nat
  | script true steps => Scripted.calls steps
  | listed _ | failed _ | script false _ | reader _ => 0
  | append first second => first.calls h leavesOf scope + second.calls h leavesOf scope
  | deferred source | map _ source | atomize _ source => source.calls h leavesOf scope
  | mapAll f source => source.calls h leavesOf scope +
    match source.course h leavesOf scope with
    | (items, none) => (f items).calls h leavesOf scope
    | (_, some _) => 0
  | share source rest => source.calls h leavesOf scope +
    rest.calls h leavesOf (scope ++ [source.course h leavesOf scope])

/-- Values in the source, and those that its functions make of such values, are kept in the first
cells. -/
def Within (m : Nat) : Source → Prop
  | listed items => ∀ v ∈ items, v.Within m
  | failed _ | reader _ => True
  | script _ steps => ∀ v, .item v ∈ steps → v.Within m
  | append first second => first.Within m ∧ second.Within m
  | deferred source | atomize _ source => source.Within m
  | map f source => source.Within m ∧ ∀ v w, v.Within m → f v = .ok w → w.Within m
  | mapAll f source =>
    source.Within m ∧ ∀ items : List Value, (∀ v ∈ items, v.Within m) → (f items).Within m
  | share source rest => source.Within m ∧ rest.Within m

/-- Several sources one after the other. -/
def concat : List Source → Source
  | [] => listed []
  | source :: sources => append source (concat sources)

/-- A source, or the error of building it. -/
def ofExcept : Except Error Source → Source
  | .ok source => source
  | .error e => failed e

end Source

/-! ## Running -/

variable {h : Host} {n m w : Nat} {Ψ : Courses} {l : Nat → Course}

theorem Scripted.runs (counted : Bool) (steps : List Scripted) :
    (producer counted steps).Runs h n (if counted then calls steps else 0) Ψ (course steps) := by
  have hcall : ∀ {p o w}, p.Runs h n (if counted then w else 0) Ψ o →
      (call counted p).Runs h n (if counted then w + 1 else 0) Ψ o := by
    intro p o w hp
    cases counted with
    | true => exact hp.tick
    | false => exact hp
  induction steps with
  | nil => exact hcall (w := 0) (.done _)
  | cons step steps ih =>
    cases step with
    | item v => exact hcall ih.emit
    | pause => exact hcall ih.pause
    | done => exact hcall (w := 0) (.done _)
    | fail e => exact hcall (w := 0) (.fail _)

namespace Source

theorem course_within {scope : List Course} {σ : Source} (hσ : σ.Within m)
    (hscope : ∀ o ∈ scope, ∀ v ∈ o.1, v.Within m) :
    ∀ v ∈ (σ.course h l scope).1, v.Within m := by
  induction σ generalizing scope with
  | listed items => exact hσ
  | failed e => exact nofun
  | script counted steps => exact fun v hv => hσ v (Scripted.mem_course hv)
  | append first second ih ih' =>
    intro v hv
    exact (Course.mem_andThen hv).elim (ih hσ.1 hscope v) (ih' hσ.2 hscope v)
  | deferred source ih => exact ih hσ hscope
  | map f source ih =>
    intro v hv
    obtain ⟨w, hw, hv⟩ := Course.mem_flatMap hv
    exact hσ.2 w v (ih hσ.1 hscope w hw) (Course.mem_ofItem.1 hv)
  | mapAll f source ih ih' =>
    have hitems := ih' hσ.1 hscope
    rw [course]
    generalize source.course h l scope = o at hitems
    obtain ⟨items, _ | e⟩ := o
    · exact ih items (hσ.2 items hitems) hscope
    · exact nofun
  | atomize access source ih =>
    intro v hv
    obtain ⟨w, -, hv⟩ := Course.mem_flatMap hv
    exact Value.within_atom hv
  | share source rest ih ih' =>
    refine ih' hσ.2 fun o ho => ?_
    rcases List.mem_append.1 ho with ho | ho
    · exact hscope o ho
    · rw [List.mem_singleton.1 ho]
      exact ih hσ.1 hscope
  | reader number =>
    intro v hv
    rw [course] at hv
    cases ho : scope[number]? with
    | none => simp [ho] at hv
    | some o =>
      rw [ho] at hv
      exact hscope o (List.mem_of_getElem? ho) v hv

/-- A source runs on its course, at a rank that depends on nothing but how deep it shares. -/
theorem runs {scope : List Course} {σ : Source} (hσ : σ.Within m)
    (hscope : ∀ o ∈ scope, ∀ v ∈ o.1, v.Within m) :
    ∃ k, ∀ r Ψ shared, Ψ.Know r m l → List.Forall₂ (Course.Is r Ψ) scope shared →
      (σ.producer shared).Runs h (r + k) (σ.calls h l scope) Ψ (σ.course h l scope) := by
  induction σ generalizing scope with
  | listed items => exact ⟨0, fun r Ψ shared _ _ => .ofList _ items⟩
  | failed e => exact ⟨0, fun r Ψ shared _ _ => .fail _⟩
  | script counted steps =>
    refine ⟨0, fun r Ψ shared _ _ => ?_⟩
    cases counted with
    | true => exact Scripted.runs true steps
    | false => exact Scripted.runs false steps
  | append first second ih ih' =>
    obtain ⟨k, hk⟩ := ih hσ.1 hscope
    obtain ⟨k', hk'⟩ := ih' hσ.2 hscope
    refine ⟨max k k', fun r Ψ shared hΨ hs => ?_⟩
    refine Runs.append (k := fun _ => second.producer shared)
      ((hk r Ψ shared hΨ hs).mono (by omega)) fun _ Ψ' hext => ?_
    exact ((hk' r Ψ shared hΨ hs).mono (by omega)).extend hext
  | deferred source ih =>
    obtain ⟨k, hk⟩ := ih hσ hscope
    exact ⟨k, fun r Ψ shared hΨ hs => .deferred (hk r Ψ shared hΨ hs)⟩
  | map f source ih =>
    obtain ⟨k, hk⟩ := ih hσ.1 hscope
    exact ⟨k, fun r Ψ shared hΨ hs => .mapItems (hk r Ψ shared hΨ hs)⟩
  | mapAll f source ih ih' =>
    obtain ⟨k, hk⟩ := ih' hσ.1 hscope
    have hitems := course_within (h := h) (l := l) hσ.1 hscope
    rw [course, calls]
    generalize source.course h l scope = o at hk hitems
    obtain ⟨items, _ | e⟩ := o
    · obtain ⟨k', hk'⟩ := ih items (hσ.2 items hitems) hscope
      refine ⟨max k k', fun r Ψ shared hΨ hs => ?_⟩
      have hle : r + k ≤ r + max k k' := Nat.add_le_add_left (Nat.le_max_left k k') r
      have hle' : r + k' ≤ r + max k k' := Nat.add_le_add_left (Nat.le_max_right k k') r
      exact .withAll (g := fun items => (f items).course h l scope)
        ((hk r Ψ shared hΨ hs).mono hle) fun _ Ψ' hext =>
          ((hk' r Ψ shared hΨ hs).mono hle').extend hext
    · exact ⟨k, fun r Ψ shared hΨ hs => .withAll (g := fun items => (f items).course h l scope)
        (k := 0) (hk r Ψ shared hΨ hs) nofun⟩
  | atomize access source ih =>
    obtain ⟨k, hk⟩ := ih hσ hscope
    refine ⟨k, fun r Ψ shared hΨ hs => ?_⟩
    exact .atomize (hΨ.mono (by omega) (.refl _)) (course_within hσ hscope) (hk r Ψ shared hΨ hs)
  | share source rest ih ih' =>
    obtain ⟨k, hk⟩ := ih hσ.1 hscope
    have hscope' : ∀ o ∈ scope ++ [source.course h l scope], ∀ v ∈ o.1, v.Within m := by
      intro o ho
      rcases List.mem_append.1 ho with ho | ho
      · exact hscope o ho
      · rw [List.mem_singleton.1 ho]
        exact course_within hσ.1 hscope
    obtain ⟨k', hk'⟩ := ih' hσ.2 hscope'
    refine ⟨k + 1 + k', fun r Ψ shared hΨ hs => ?_⟩
    refine .share (r := r + k) (by omega) (hk r Ψ shared hΨ hs) fun Ψ' c hext hc => ?_
    have hrest := hk' (r + k + 1) Ψ' (shared ++ [.cell c]) (hΨ.mono (by omega) hext)
      (List.rel_append (hs.imp fun _ _ ho => ho.mono (by omega) hext)
        (.cons (.cell hc (by omega)) .nil))
    rwa [show r + k + 1 + k' = r + (k + 1 + k') by omega] at hrest
  | reader number =>
    refine ⟨0, fun r Ψ shared hΨ hs => ?_⟩
    rw [producer, course]
    by_cases hlt : number < scope.length
    · have hlt' : number < shared.length := hs.length_eq ▸ hlt
      rw [List.getElem?_eq_getElem hlt, List.getElem?_eq_getElem hlt']
      exact .reader (hs.get hlt hlt')
    · have hle : shared.length ≤ number := hs.length_eq ▸ Nat.le_of_not_lt hlt
      rw [List.getElem?_eq_none (Nat.le_of_not_lt hlt), List.getElem?_eq_none hle]
      exact .done _

end Source

/-! ## A store of shared sources -/

/-- What is known of a source: its course, what that comes to when it is flattened, and how often
counted functions are called. -/
structure Summary where
  course : Course
  leaves : Course
  calls : Nat

namespace Source

/-- What the cells with the sources come to when they are flattened. -/
def leavesOf (known : List Summary) (c : Nat) : Course :=
  (known[c]?.map (·.leaves)).getD ([], none)

/-- The summary of a source that may read those of which summaries are given. -/
def summary (h : Host) (known : List Summary) (σ : Source) : Summary :=
  let o := σ.course h (leavesOf known) (known.map (·.course))
  ⟨o, Course.flatMap (Value.leaves (leavesOf known)) o.1 o.2,
    σ.calls h (leavesOf known) (known.map (·.course))⟩

/-- The summaries of sources each of which may read those before it. -/
def summaries (h : Host) (store : List Source) : List Summary :=
  store.foldl (fun known σ => known ++ [σ.summary h known]) []

theorem summaries_concat (store : List Source) (σ : Source) :
    summaries h (store ++ [σ]) = summaries h store ++ [σ.summary h (summaries h store)] := by
  rw [summaries, List.foldl_append]
  rfl

theorem length_summaries (store : List Source) : (summaries h store).length = store.length := by
  induction store using List.reverseRecOn with
  | nil => rfl
  | append_singleton store σ ih => simp [summaries_concat, ih]

variable {known : List Summary} {x : Summary}

theorem leavesOf_concat_of_lt {c : Nat} (hc : c < known.length) :
    leavesOf (known ++ [x]) c = leavesOf known c := by
  rw [leavesOf, leavesOf, List.getElem?_append_left hc]

theorem leavesOf_concat_length : leavesOf (known ++ [x]) known.length = x.leaves := by
  rw [leavesOf, List.getElem?_concat_length]
  rfl

end Source

namespace Session

/-- All cells, as shared sequences. -/
def handles (s : Session) : List Shared := (List.range s.cells.size).map .cell

/-- The session with no cells but those of the sources, unread, each with those before it in scope. -/
def loaded (s : Session) (store : List Source) : Session :=
  store.foldl (fun t σ => (t.allocate (σ.producer t.handles)).2) { s with cells := #[] }

theorem loaded_concat (s : Session) (store : List Source) (σ : Source) :
    s.loaded (store ++ [σ]) =
      ((s.loaded store).allocate (σ.producer (s.loaded store).handles)).2 := by
  rw [loaded, List.foldl_append]
  rfl

theorem handles_allocate (s : Session) (p : Producer) :
    (s.allocate p).2.handles = s.handles ++ [.cell s.cells.size] := by
  simp [handles, cells_allocate, List.range_succ]

theorem calm_loaded (s : Session) (store : List Source) :
    (s.loaded store).calm = s.calm.loaded store := by
  induction store using List.reverseRecOn with
  | nil => rfl
  | append_singleton store σ ih =>
    rw [loaded_concat, loaded_concat, ← ih]
    rfl

end Session

namespace Source

/-- The account of a session loaded with sources. -/
structure Stored (h : Host) (s : Session) (store : List Source) (n : Nat) (a : Account) : Prop where
  session : a.session = s.loaded store
  size : a.session.cells.size = store.length
  onCourse : ∀ m, a.OnCourse h m
  know : a.courses.Know n store.length (leavesOf (summaries h store))
  scope : List.Forall₂ (Course.Is n a.courses) ((summaries h store).map (·.course)) a.session.handles
  within : ∀ o ∈ (summaries h store).map (·.course), ∀ v ∈ o.1, v.Within store.length
  bound : a.bound = s.pulls + ((summaries h store).map (·.calls)).sum

/-- What is known of the cells remains known when there is one more source. -/
theorem know_concat {known : List Summary} {σ : Source} {r : Nat} {Ψ' : Courses}
    (hk : Ψ.Know n known.length (leavesOf known)) (hn : n ≤ r) (hΨ : Ψ.Extends Ψ')
    (hnew : Ψ' known.length = some (r, (σ.summary h known).course))
    (hσ : ∀ v ∈ (σ.summary h known).course.1, v.Within known.length) :
    Ψ'.Know (r + 1) (known.length + 1) (leavesOf (known ++ [σ.summary h known])) := by
  have hsame : ∀ c ≤ known.length, ∀ o : Course, (∀ v ∈ o.1, v.Within c) →
      Course.flatMap (Value.leaves (leavesOf known)) o.1 o.2 =
        Course.flatMap (Value.leaves (leavesOf (known ++ [σ.summary h known]))) o.1 o.2 := by
    intro c hc o ho
    refine Course.flatMap_congr fun v hv => (ho v hv).leaves_congr fun j hj => ?_
    exact (leavesOf_concat_of_lt (Nat.lt_of_lt_of_le hj hc)).symm
  intro c hc
  rcases Nat.lt_succ_iff_lt_or_eq.1 hc with hc | rfl
  · obtain ⟨r', o, ho, hr, hv, hl⟩ := hk c hc
    refine ⟨r', o, hΨ c _ ho, by omega, hv, ?_⟩
    rw [leavesOf_concat_of_lt hc, hl]
    exact hsame c (Nat.le_of_lt hc) o hv
  · refine ⟨r, _, hnew, by omega, hσ, ?_⟩
    rw [leavesOf_concat_length]
    exact hsame _ (Nat.le_refl _) _ hσ

theorem Stored.concat {s : Session} {store : List Source} {a : Account} {σ : Source}
    (ha : Stored h s store n a) (hσ : σ.Within store.length) :
    ∃ n' b, Stored h s (store ++ [σ]) n' b := by
  obtain ⟨k, hk⟩ := runs (h := h) (l := leavesOf (summaries h store)) hσ ha.within
  have hrun := hk n a.courses a.session.handles ha.know ha.scope
  have hlen : (summaries h store).length = store.length := length_summaries store
  obtain ⟨b, hb⟩ : ∃ b, b = a.allocate (σ.producer a.session.handles) (n + k)
    (σ.summary h (summaries h store)).course (σ.summary h (summaries h store)).calls := ⟨_, rfl⟩
  have hlead : ∀ m, n + k < m → a.Leads h m b (σ.summary h (summaries h store)).calls 0 ∧
      b.courses a.session.cells.size =
        some (n + k, (σ.summary h (summaries h store)).course) := by
    intro m hm
    rw [hb]
    exact (ha.onCourse m).allocate hm hrun
  obtain ⟨hl, hnew⟩ := hlead (n + k + 1) (Nat.lt_succ_self _)
  have hwithin := course_within (h := h) (l := leavesOf (summaries h store)) hσ ha.within
  have hext := hl.moves.keeps
  refine ⟨n + k + 1, b, ?_, ?_, fun m => ?_, ?_, ?_, fun o ho v hv => ?_, ?_⟩
  · rw [hb, Session.loaded_concat, ← ha.session]
    rfl
  · rw [List.length_append, ← ha.size, hb]
    simp [Account.allocate, Session.cells_allocate]
  · exact (hlead (max m (n + k + 1)) (by omega)).1.onCourse.anti (Nat.le_max_left ..)
  · rw [summaries_concat, List.length_append, List.length_singleton, ← hlen]
    refine know_concat (n := n) ?_ (by omega) hext ?_ ?_
    · rw [hlen]
      exact ha.know
    · rw [hlen, ← ha.size]
      exact hnew
    · rw [hlen]
      exact hwithin
  · rw [summaries_concat, List.map_append]
    have hhandles : b.session.handles = a.session.handles ++ [.cell a.session.cells.size] := by
      rw [hb]
      exact Session.handles_allocate ..
    rw [hhandles]
    exact List.rel_append (ha.scope.imp fun _ _ ho => ho.mono (by omega) hext)
      (.cons (.cell hnew (by omega)) .nil)
  · rw [List.length_append, List.length_singleton]
    rw [summaries_concat, List.map_append] at ho
    apply Value.Within.mono (Nat.le_succ _)
    rcases List.mem_append.1 ho with ho | ho
    · exact ha.within o ho v hv
    · rw [List.mem_singleton.1 ho] at hv
      exact hwithin v hv
  · rw [summaries_concat, List.map_append, List.sum_append, hb, Account.bound_allocate, ha.bound,
      Nat.add_assoc]
    rfl

theorem stored (s : Session) {store : List Source}
    (hstore : ∀ i (σ : Source), store[i]? = some σ → σ.Within i) : ∃ n a, Stored h s store n a := by
  induction store using List.reverseRecOn with
  | nil =>
    refine ⟨0, ⟨{ s with cells := #[] }, fun _ => none, fun _ => 0⟩, rfl, rfl, fun _ => nofun, nofun,
      .nil, nofun, ?_⟩
    simp [Account.bound, summaries]
  | append_singleton store σ ih =>
    obtain ⟨n, a, ha⟩ := ih fun i σ' hi => hstore i σ' (by
      rw [List.getElem?_append_left (List.getElem?_eq_some_iff.1 hi).choose, hi])
    exact ha.concat (hstore store.length σ List.getElem?_concat_length)

end Source

/-! ## What has ended -/

/-- Nothing is left to be called of what has ended or failed. -/
def Turn.Spent (t : Turn) : Prop :=
  (t.outcome = .done ∨ ∃ e, t.outcome = .failed e) → t.rest = .done

theorem Turn.andThen_spent {t : Turn} {around : Producer → Producer}
    {item : Value → Producer → Session → Turn} {finish : Session → Turn}
    (hitem : ∀ v r s, (item v r s).Spent) (hfinish : ∀ s, (finish s).Spent) :
    (t.andThen around item finish).Spent := by
  unfold andThen
  split
  · exact hitem _ _ _
  · exact hfinish _
  · exact fun _ => rfl
  all_goals simp [Spent]

theorem Producer.next_spent (fuel : Nat) (p : Producer) (s : Session) :
    (next h fuel p s).Spent := by
  have hitem : ∀ v q t, Turn.Spent ⟨.item v, q, t⟩ := by simp [Turn.Spent]
  have hpending : ∀ topic q t, Turn.Spent ⟨.pending topic, q, t⟩ := by simp [Turn.Spent]
  have hexhausted : ∀ q t, Turn.Spent ⟨.exhausted, q, t⟩ := by simp [Turn.Spent]
  induction fuel generalizing p s with
  | zero => exact hexhausted _ _
  | succ fuel ih =>
    cases p with
    | done | fail => exact fun _ => rfl
    | emit => exact hitem _ _ _
    | pause => exact hpending _ _ _
    | append first second =>
      exact Turn.andThen_spent (fun _ _ _ => hitem _ _ _) fun _ => ih _ _
    | ask q k =>
      simp only [next]
      rcases s.ask h q with ⟨_ | _ | _ | _, t⟩
      · exact ih _ _
      · exact hpending _ _ _
      · exact fun _ => rfl
      · exact hexhausted _ _
    | fetch shared i k =>
      simp only [next]
      split
      · exact ih _ _
      · exact ih _ _
      · exact fun _ => rfl
      · split
        · exact ih _ _
        · exact ih _ _
        · exact fun _ => rfl
        · exact hpending _ _ _
        · exact hexhausted _ _
    | gather step i kept source k =>
      refine Turn.andThen_spent (fun v r t => ?_) fun _ => ih _ _
      split
      · exact ih _ _
      · exact ih _ _
      · exact fun _ => rfl
    | forEach i source body finish => exact Turn.andThen_spent (fun _ _ _ => ih _ _) fun _ => ih _ _
    | apply f c arguments k =>
      simp only [next]
      split
      · exact ih _ _
      · exact fun _ => rfl
    | length | share | call | log | tick => exact ih _ _

/-! ## What a caller is given -/

section

variable {p : Producer} {s t u : Session} {vs ws : List Value} {e : Option Error}
  {os : List (Attempt (Option Value))} {q : Sequence}

theorem Producer.Draws.pulls_le {d : Draw} (hd : Draws h p s d t) : s.pulls ≤ t.pulls := by
  induction hd with
  | done | fail | emit | ask_failed | fetch_failed | apply_failed => exact Nat.le_refl _
  | append_item _ ih | append_failed _ ih | ask _ _ ih | fetch_item _ _ ih | fetch_finish _ _ ih
  | length _ ih | share _ ih | gather_failed _ ih | gather_fail _ _ ih | forEach_failed _ ih
  | apply _ _ ih | call _ ih | log _ ih | pause _ ih | unread_failed _ _ ih => exact ih
  | append_finish _ _ ih ih' | gather_more _ _ _ ih ih' | gather_enough _ _ _ ih ih'
  | gather_finish _ _ ih ih' | forEach_item _ _ ih ih' | forEach_finish _ _ ih ih'
  | unread_item _ _ _ ih ih' | unread_finish _ _ _ ih ih' => exact Nat.le_trans ih ih'
  | tick _ ih => exact Nat.le_trans (Nat.le_succ _) ih

theorem Producer.Yields.pulls_le (hp : Yields h p s vs e t) : s.pulls ≤ t.pulls := by
  induction hp with
  | finish hd | failed hd => exact hd.pulls_le
  | item hd _ ih => exact Nat.le_trans hd.pulls_le ih

theorem Producer.Remains.pulls_le {source : Option Producer} (hr : Remains h source t vs e u) :
    t.pulls ≤ u.pulls := by
  change t.calm.pulls ≤ u.pulls
  cases source with
  | some q => exact Yields.pulls_le hr
  | none => rw [hr.2.2]

/-- A producer that runs on a course yields it. -/
theorem Producer.Runs.yields {o : Course} {a : Account} (hp : p.Runs h n w a.courses o)
    (ha : a.OnCourse h n) :
    ∃ t, Yields h p a.session o.1 o.2 t ∧ t.pulls ≤ a.bound + w := by
  obtain ⟨vs, e⟩ := o
  induction vs generalizing p w a with
  | nil =>
    obtain ⟨x, b, w', hl, hd, hx⟩ := hp.proceeds (.refl _) ha
    have hpulls : b.session.pulls ≤ a.bound + w := by
      have := hl.bound
      unfold Account.bound at this
      unfold Account.bound
      omega
    refine ⟨b.session, ?_, hpulls⟩
    cases hx with
    | finish => exact .finish hd
    | failed => exact .failed hd
  | cons v vs ih =>
    obtain ⟨x, b, w', hl, hd, hx⟩ := hp.proceeds (.refl _) ha
    cases hx with
    | item hq =>
      obtain ⟨t, hy, ht⟩ := ih hl.onCourse hq
      exact ⟨t, .item hd hy, Nat.le_trans ht hl.bound⟩

/-- Answers of a producer are what it yields, and then nothing but the end. -/
theorem Producer.Yields.gives (hp : Yields h p s vs e t) (hr : Responds h p s os) :
    Supply.Gives ⟨vs, some e⟩ os := by
  induction hr generalizing vs with
  | nil => exact .inl List.nil_prefix
  | item hd _ ih =>
    cases hp with
    | finish hd' | failed hd' => cases (hd.unique hd').1
    | item hd' hy =>
      obtain ⟨heq, rfl⟩ := hd.unique hd'
      cases heq
      exact (ih hy).cons
  | finish n hd =>
    cases hp with
    | failed hd' | item hd' => cases (hd.unique hd').1
    | finish => exact .inr (.inl ⟨n, rfl, rfl⟩)
  | failed n hd =>
    cases hp with
    | finish hd' | item hd' => cases (hd.unique hd').1
    | failed hd' =>
      cases (hd.unique hd').1
      exact .inr (.inr ⟨_, n, rfl, rfl⟩)

theorem Producer.Yields.exists_responds (hp : Yields h p s vs e t) (n : Nat) :
    ∃ os, os.length = n ∧ Responds h p s os := by
  have htake : ∀ os, Responds h p s os → n ≤ os.length → ∃ os, os.length = n ∧ Responds h p s os := by
    intro os hr hn
    refine ⟨os.take n, List.length_take_of_le hn, ?_⟩
    rw [← List.take_append_drop n os] at hr
    exact hr.of_append
  cases e with
  | none => exact htake _ (hp.responds n) (by simp)
  | some e => exact htake _ (hp.responds_failed n) (by simp; omega)

/-- Where a caller of `next` is, in terms of all that the producer yields. -/
theorem Sequence.Stage.remains (hs : Stage h p s os q t) (hp : Yields h p s vs e u) :
    t.pulls ≤ u.pulls ∧ (vs.length < os.length → q = ⟨[], none⟩) := by
  cases hs with
  | @underway given _ _ hs =>
    obtain ⟨us, rfl, hus⟩ := hs.remains hp
    refine ⟨hus.pulls_le, fun hlt => ?_⟩
    simp only [List.length_append, List.length_map] at hlt
    omega
  | ended n hy | failed n hy =>
    obtain ⟨rfl, rfl, rfl⟩ := hp.unique hy
    exact ⟨Nat.le_refl _, fun _ => rfl⟩

end

/-- The source as a sequence that may read all cells. -/
def Source.sequence (σ : Source) (s : Session) : Sequence := .ofProducer (σ.producer s.handles)

/-- A caller of `next` is given what the source comes to: its items in order, then the error once, if
one ends it, and then the end for ever. Any number of answers can be had. Counted functions are called
no more than up to their end or error, each of them if it is the only one that is counted. Nothing is left
of a producer that has ended or failed, and nothing happens any more after the end or an error of the
whole. -/
theorem Source.delivers_course {store : List Source} {σ : Source}
    (hstore : ∀ i (σ : Source), store[i]? = some σ → σ.Within i) (hσ : σ.Within store.length)
    (h : Host) (s : Session) :
    (∀ os q t, Sequence.Delivers h (σ.sequence (s.loaded store)) (s.loaded store) os q t →
      Supply.Gives ⟨(σ.summary h (summaries h store)).course.1,
        some (σ.summary h (summaries h store)).course.2⟩ os ∧
      t.pulls ≤ s.pulls + ((summaries h store).map (·.calls)).sum +
        (σ.summary h (summaries h store)).calls ∧
      ((σ.summary h (summaries h store)).course.1.length < os.length →
        ∀ fuel, q.next h fuel t = (.done, q, t))) ∧
    (∀ n, ∃ os q t, os.length = n ∧
      Sequence.Delivers h (σ.sequence (s.loaded store)) (s.loaded store) os q t) ∧
    ∀ p fuel t, (Producer.next h fuel p t).Spent := by
  obtain ⟨n, a, ha⟩ := stored (h := h) s.calm hstore
  obtain ⟨k, hk⟩ := runs (h := h) (l := leavesOf (summaries h store)) hσ ha.within
  have hrun := hk n a.courses a.session.handles ha.know ha.scope
  obtain ⟨z, hy, hz⟩ := hrun.yields (ha.onCourse (n + k))
  rw [ha.session, ← Session.calm_loaded] at hy
  rw [ha.bound] at hz
  change Yields h (σ.producer (s.loaded store).handles) _ _ _ _ at hy
  refine ⟨?_, ?_, fun p fuel t => next_spent fuel p t⟩
  · rintro os q t ⟨xs, hnext, rfl, hserves⟩
    have hstage := hserves.stage (fun x hx => by rw [hnext x hx]; nofun) (.inl hnext)
    obtain ⟨hpulls, hover⟩ := hstage.remains hy
    refine ⟨hy.gives hstage.responds, Nat.le_trans hpulls hz, fun hlt fuel => ?_⟩
    rw [hover hlt]
    rfl
  · intro n
    obtain ⟨os, hos, hr⟩ := hy.exists_responds n
    obtain ⟨q, t, hd⟩ := hr.delivers rfl
    exact ⟨os, q, t, hos, hd⟩

namespace Source

/-- Two items with a suspension between them, and a third one that is never asked for. -/
def stopping : Source :=
  script true [.item (.integer 1), .pause, .item (.array [.listed [.integer 2]]), .done,
    .item (.integer 3)]

def refuseArrays : Value → Except Error Value
  | .array _ => .error outage
  | v => .ok v

/-- A shared sequence in an array that is flattened, then all its items backwards, then its items up to
the first array. -/
def threefold : Source :=
  concat [atomize .live (listed [.array [.cell 0, .listed [.integer 4]]]),
    mapAll (fun items => listed items.reverse) (reader 0), map refuseArrays (reader 0)]

theorem delivers_course_threefold :
    ∃ os q t, Sequence.Delivers .absent (threefold.sequence (Session.empty.loaded [stopping]))
        (Session.empty.loaded [stopping]) os q t ∧
      os = [.item (.integer 1), .item (.integer 2), .item (.integer 4),
        .item (.array [.listed [.integer 2]]), .item (.integer 1), .item (.integer 1), .failed outage,
        .done] ∧
      t.pulls ≤ 4 := by
  have hint : ∀ {m i}, (Value.integer i).Within m := .atomic
  have harray : ∀ {m}, (Value.array [.listed [.integer 2]]).Within m := .array (by
    simpa using .listed (by simpa using hint))
  have hstore : ∀ i (σ : Source), [stopping][i]? = some σ → σ.Within i := by
    intro i σ hσ
    obtain ⟨hi, rfl⟩ := List.getElem?_eq_some_iff.1 hσ
    obtain rfl : i = 0 := by simpa using hi
    intro v hv
    simp only [List.mem_cons, Scripted.item.injEq, reduceCtorEq, List.not_mem_nil, or_false,
      false_or] at hv
    rcases hv with rfl | rfl | rfl
    exacts [hint, harray, hint]
  have hσ : threefold.Within 1 := by
    refine ⟨?_, ⟨trivial, ?_⟩, ⟨trivial, ?_⟩, nofun⟩
    · intro v hv
      rw [List.mem_singleton.1 hv]
      refine .array fun s hs => ?_
      rcases List.mem_cons.1 hs with rfl | hs
      · exact .cell Nat.one_pos
      · rw [List.mem_singleton.1 hs]
        exact .listed (by simpa using hint)
    · intro items hitems v hv
      exact hitems v (List.mem_reverse.1 hv)
    · intro v w hv hw
      cases v with
      | array => cases hw
      | _ => cases hw; exact hv
  obtain ⟨hgives, hall, -⟩ := delivers_course hstore hσ .absent .empty
  obtain ⟨os, q, t, hlen, hd⟩ := hall 8
  obtain ⟨hos, hpulls, -⟩ := hgives os q t hd
  refine ⟨os, q, t, hd, ?_, hpulls⟩
  rcases hos with hos | ⟨n, he, -⟩ | ⟨e, n, he, rfl⟩
  · have hle := hos.length_le
    rw [hlen] at hle
    exact absurd hle (by decide)
  · cases he
  · cases he
    obtain rfl : n = 1 := by
      simp only [List.length_append, List.length_map, List.length_cons, List.length_replicate] at hlen
      change 6 + (n + 1) = 8 at hlen
      omega
    rfl

end Source

end XPath
