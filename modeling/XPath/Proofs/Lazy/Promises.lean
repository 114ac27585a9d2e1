import Mathlib.Data.List.Infix
import XPath.Proofs.Lazy.Combinators
import XPath.Proofs.Lazy.Waiting

/-!
# Promises about cells

What holds of all items of a sequence still holds when the sequence is put into a cell and read from
there, although the readers may come back to it at any time. For every cell of interest a promise is
recorded, and no step of any producer breaks a promise (`Producer.Draws.onward`). A filter promises
of its cell what is known of the items that it selects from, and gives some of them, in order.
-/

namespace XPath

namespace Producer

variable {h : Host}

/-! ## Cells in the course of drawing -/

theorem Draws.idle {p : Producer} {s t : Session} {d : Draw} {i : Nat} {c : Cell}
    (hd : Draws h p s d t) (hi : s.Idle i c) : t.Idle i c := by
  induction hd with
  | done | fail | emit | ask_failed | fetch_failed | apply_failed => exact hi
  | append_item _ ih | append_failed _ ih | ask _ _ ih | fetch_item _ _ ih | fetch_finish _ _ ih
  | length _ ih | gather_failed _ ih | forEach_failed _ ih | apply _ _ ih | call _ ih
  | pause _ ih | gather_fail _ _ ih => exact ih hi
  | append_finish _ _ ih ih' | gather_more _ _ _ ih ih' | gather_enough _ _ _ ih ih'
  | gather_finish _ _ ih ih' | forEach_item _ _ ih ih' | forEach_finish _ _ ih ih' =>
    exact ih' (ih hi)
  | log _ ih | tick _ ih => exact ih (hi.of_cells rfl)
  | share _ ih => exact ih (hi.allocate _)
  | @unread_item shared j k cell source source' v s t u d hl _ _ ih ih' =>
    obtain ⟨-, items, hcell, -⟩ := Session.look_eq_unread.1 hl
    have hne := hi.ne_of_source hcell
    have ht := ih (hi.modify hne (Session.cells_detach s cell))
    exact ih' (ht.modify hne (Session.cells_keep ..))
  | @unread_finish shared j k cell source s t u d hl _ _ ih ih' =>
    obtain ⟨-, items, hcell, -⟩ := Session.look_eq_unread.1 hl
    exact ih' (ih (hi.modify (hi.ne_of_source hcell) (Session.cells_detach s cell)))
  | @unread_failed shared j k cell source e s t hl _ ih =>
    obtain ⟨-, items, hcell, -⟩ := Session.look_eq_unread.1 hl
    have hne := hi.ne_of_source hcell
    have ht := ih (hi.modify hne (Session.cells_detach s cell))
    exact ht.modify hne (Session.cells_spoil ..)

theorem Draws.size_le {p : Producer} {s t : Session} {d : Draw} (hd : Draws h p s d t) :
    s.cells.size ≤ t.cells.size := by
  induction hd with
  | share _ ih => exact (Nat.le_succ _).trans (by simpa [Session.cells_allocate] using ih)
  | unread_item _ _ _ ih ih' =>
    simp only [Session.cells_detach, Session.cells_keep, Array.size_modify] at ih ih'
    omega
  | unread_finish _ _ _ ih ih' =>
    simp only [Session.cells_detach, Array.size_modify] at ih
    omega
  | unread_failed _ _ ih =>
    simpa only [Session.cells_detach, Session.cells_spoil, Array.size_modify] using ih
  | log _ ih | tick _ ih => exact ih
  | _ => omega

/-- The items that draws in any sessions give one after the other. -/
inductive Loose (h : Host) : Producer → List Value → Prop
  | nil {p} : Loose h p []
  | item {p q v vs s t} : Draws h p s (.item v q) t → Loose h q vs → Loose h p (v :: vs)

theorem Lists.loose {p : Producer} {vs M : List Value} (hp : Lists h vs p) (hM : Loose h p M) :
    M <+: vs := by
  induction vs generalizing p M with
  | nil =>
    cases hM with
    | nil => exact List.prefix_refl _
    | item hd => obtain ⟨-, hd | ⟨_, hd⟩⟩ := hp _ _ _ hd <;> cases hd
  | cons v vs ih =>
    cases hM with
    | nil => exact List.nil_prefix
    | item hd hM =>
      obtain ⟨-, ⟨q, hd, hq⟩ | ⟨_, hd⟩⟩ := hp _ _ _ hd <;> cases hd
      exact (List.prefix_cons_inj v).2 (ih hq hM)

/-- What is drawn from a reader of a cell is the item of the cell at its place. -/
theorem Draws.of_read {c i : Nat} {v : Value} {q : Producer} {s t : Session}
    (hd : Draws h (.call (.read c i)) s (.item v q) t) :
    q = .call (.read c (i + 1)) ∧ ∃ cell, t.cells[c]? = some cell ∧ cell.items[i]? = some v := by
  cases hd with
  | call hd =>
    rw [Call.body] at hd
    generalize hp : fetch (.cell c) i _ = p at hd
    generalize hd' : Draw.item v q = d at hd
    induction hd with
    | @fetch_item shared j k w s t d hl hd _ =>
      cases hp
      cases hd
      cases hd'
      refine ⟨rfl, ?_⟩
      simp only [Session.look] at hl
      rcases hc : s.cells[c]? with _ | cell <;> grind
    | fetch_finish _ hd | unread_finish _ _ hd =>
      cases hp
      cases hd
      cases hd'
    | unread_item _ _ _ _ ih => exact ih hp hd'
    | fetch_failed | unread_failed => cases hd'
    | _ => cases hp

end Producer

/-! ## Promises -/

/-- What is said of all items of a cell, and the items that it is known to begin with. -/
structure Promise where
  holds : List Value → Prop
  known : List Value

abbrev Promises := Nat → Option Promise

namespace Promises

variable {W W' W'' : Promises} {n m : Nat}

/-- What was promised still is, though more items may be known. -/
def Extends (W W' : Promises) : Prop :=
  ∀ c P, W c = some P → ∃ known, P.known <+: known ∧ W' c = some ⟨P.holds, known⟩

theorem Extends.refl (W : Promises) : W.Extends W := fun _ P hP => ⟨P.known, List.prefix_refl _, hP⟩

theorem Extends.trans (h : W.Extends W') (h' : W'.Extends W'') :
    W.Extends W'' := by
  intro c P hP
  obtain ⟨K, hK, hP⟩ := h c P hP
  obtain ⟨K', hK', hP⟩ := h' c _ hP
  exact ⟨K', hK.trans hK', hP⟩

/-- More promises, but none about the first `n` cells. -/
def Later (n : Nat) (W W' : Promises) : Prop :=
  W.Extends W' ∧ ∀ c < n, W c = none → W' c = none

theorem Later.refl (n : Nat) (W : Promises) : Later n W W := ⟨.refl W, fun _ _ => id⟩

theorem Later.trans (hnm : n ≤ m) (h : Later n W W') (h' : Later m W' W'') : Later n W W'' :=
  ⟨h.1.trans h'.1, fun c hc hn => h'.2 c (Nat.lt_of_lt_of_le hc hnm) (h.2 c hc hn)⟩

end Promises

namespace Producer

variable {h : Host}

/-- What `Q` says of a list makes `P` hold of its parts. -/
def Parts (Q P : List Value → Prop) : Prop := ∀ M N, Q M → N.Sublist M → P N

/-- The body gives the item that it is run for, or nothing. -/
def Picks (h : Host) (body : Nat → Value → Producer) : Prop :=
  ∀ i v s w q t, Draws h (body i v) s (.item w q) t → w = v ∧ q = .done

/-- The producer, after giving `L`, gives only items with which `P` holds of all that it has given,
as long as the promises about cells are kept. Apart from producers that need no promise there are
those that come up in the course of a filter. -/
inductive Keeps (h : Host) : Promises → (List Value → Prop) → List Value → Producer → Prop
  | steady {W P L p} : (∀ M, Loose h p M → P (L ++ M)) → Keeps h W P L p
  | gather {W P L step i kept source k} :
      (∀ kept, Keeps h W P L (k kept)) → Keeps h W P L (.gather step i kept source k)
  /-- The choice of one item. -/
  | choice {W P Q M n i source} :
      Parts Q P → Q M → Keeps h W Q M source →
      Keeps h W P [] (.gather (fun i _ v => if i = n then .enough [v] else .more []) i [] source
        ofList)
  /-- A selection from the items of a new cell. -/
  | selection {W P Q source} {body : Shared → Nat → Value → Producer} :
      Parts Q P → (∀ c, Picks h (body c)) → Q [] → Keeps h W Q [] source →
      Keeps h W P [] (.share source fun c => .forEach 0 (reader c) (body c) fun _ => .done)
  /-- A selection that goes on with the next item of its cell. -/
  | reading {W P Q K L c i body} :
      Parts Q P → Picks h body → W c = some ⟨Q, K⟩ → i ≤ K.length → L.Sublist (K.take i) →
      Keeps h W P L (.forEach i (.call (.read c i)) body fun _ => .done)
  /-- A selection that has yet to decide on the last item read, or has just given it. -/
  | visiting {W P Q K L c i first body} :
      Parts Q P → Picks h body → W c = some ⟨Q, K⟩ → i ≤ K.length → L.Sublist (K.take i) →
      (∀ s w q t, Draws h first s (.item w q) t → q = .done ∧ (L ++ [w]).Sublist (K.take i)) →
      Keeps h W P L (.append first fun _ => .forEach i (.call (.read c i)) body fun _ => .done)

namespace Keeps

variable {W W' : Promises} {P P' : List Value → Prop} {L : List Value} {p : Producer}
  {s t : Session} {d : Draw}

theorem weaken (hP : ∀ M, P M → P' M) (hk : Keeps h W P L p) : Keeps h W P' L p := by
  have parts : ∀ {Q}, Parts Q P → Parts Q P' := fun hQ M N hM hN => hP _ (hQ M N hM hN)
  induction hk with
  | steady hs => exact .steady fun M hM => hP _ (hs M hM)
  | gather _ ih => exact .gather fun kept => ih kept hP parts
  | choice hQ hM hs => exact .choice (parts hQ) hM hs
  | selection hQ hb h0 hs => exact .selection (parts hQ) hb h0 hs
  | reading hQ hb hc hi hL => exact .reading (parts hQ) hb hc hi hL
  | visiting hQ hb hc hi hL hf => exact .visiting (parts hQ) hb hc hi hL hf

theorem extend (hW : W.Extends W') (hk : Keeps h W P L p) : Keeps h W' P L p := by
  have known : ∀ {c Q K i}, W c = some ⟨Q, K⟩ → i ≤ K.length →
      ∃ K', W' c = some ⟨Q, K'⟩ ∧ i ≤ K'.length ∧ K'.take i = K.take i := by
    intro c Q K i hc hi
    obtain ⟨_, ⟨more, rfl⟩, hc'⟩ := hW c _ hc
    exact ⟨_, hc', by simp; omega, List.take_append_of_le_length hi⟩
  induction hk with
  | steady hs => exact .steady hs
  | gather _ ih => exact .gather ih
  | choice hQ hM _ ih => exact .choice hQ hM ih
  | selection hQ hb h0 _ ih => exact .selection hQ hb h0 ih
  | reading hQ hb hc hi hL =>
    obtain ⟨K', hc', hi', htake⟩ := known hc hi
    exact .reading hQ hb hc' hi' (htake ▸ hL)
  | visiting hQ hb hc hi hL hf =>
    obtain ⟨K', hc', hi', htake⟩ := known hc hi
    exact .visiting hQ hb hc' hi' (htake ▸ hL) (htake ▸ hf)

end Keeps

/-- A cell is as promised. -/
def Honours (h : Host) (W : Promises) (P : Promise) (cell : Cell) : Prop :=
  P.known <+: cell.items.toList ∧ P.holds cell.items.toList ∧
    ∀ q, cell.source = some q → Keeps h W P.holds cell.items.toList q

theorem Honours.extend {W W' : Promises} {P : Promise} {cell : Cell} (hW : W.Extends W')
    (hc : Honours h W P cell) : Honours h W' P cell :=
  ⟨hc.1, hc.2.1, fun q hq => (hc.2.2 q hq).extend hW⟩

/-- All promises about the cells of a session are kept. -/
def Kept (h : Host) (W : Promises) (s : Session) : Prop :=
  ∀ c P, W c = some P → ∃ cell, s.cells[c]? = some cell ∧ Honours h W P cell

namespace Kept

variable {W W' : Promises} {P : List Value → Prop} {s t : Session} {c : Nat}

theorem of_cells (hs : Kept h W s) (ht : t.cells = s.cells) : Kept h W t :=
  fun c P hP => ht ▸ hs c P hP

theorem modify {f : Cell → Cell} (hs : Kept h W s) (ht : t.cells = s.cells.modify c f)
    (hf : ∀ P cell, W c = some P → s.cells[c]? = some cell → Honours h W P (f cell)) :
    Kept h W t := by
  intro j P hP
  obtain ⟨cell, hcell, hh⟩ := hs j P hP
  rw [ht, Array.getElem?_modify, hcell]
  split
  · next hj =>
    subst hj
    exact ⟨f cell, rfl, hf P cell hP hcell⟩
  · exact ⟨cell, rfl, hh⟩

theorem detach (hs : Kept h W s) (c : Nat) : Kept h W (s.detach c) :=
  hs.modify (Session.cells_detach s c) fun P cell hP hcell => by
    obtain ⟨_, hcell', hh⟩ := hs c P hP
    cases hcell.symm.trans hcell'
    exact ⟨hh.1, hh.2.1, fun _ hq => nomatch hq⟩

theorem spoil (hs : Kept h W s) (c : Nat) (e : Error) : Kept h W (s.spoil c e) :=
  hs.modify (Session.cells_spoil s c e) fun P cell hP hcell => by
    obtain ⟨_, hcell', hh⟩ := hs c P hP
    cases hcell.symm.trans hcell'
    exact hh

theorem lt_size (hs : Kept h W s) {P : Promise} (hP : W c = some P) : c < s.cells.size := by
  obtain ⟨cell, hcell, -⟩ := hs c P hP
  exact (Array.getElem?_eq_some_iff.1 hcell).choose

/-- What is promised of a cell holds of a list that begins with the known items. -/
theorem exists_list (hs : Kept h W s) {K : List Value} (hc : W c = some ⟨P, K⟩) :
    ∃ M, P M ∧ K <+: M := by
  obtain ⟨cell, -, hknown, hP, -⟩ := hs c _ hc
  exact ⟨_, hP, hknown⟩

theorem allocate (hs : Kept h W s) (source : Producer) : Kept h W (s.allocate source).2 := by
  intro c P hP
  obtain ⟨cell, hcell, hh⟩ := hs c P hP
  have hlt := hs.lt_size hP
  exact ⟨cell, by simp [Session.cells_allocate, Array.getElem?_push, hcell, hlt.ne], hh⟩

/-- A promise about a new cell. -/
theorem promise (hs : Kept h W s) {source : Producer} (h0 : P []) (hp : Keeps h W P [] source) :
    Promises.Later s.cells.size W (Function.update W s.cells.size (some ⟨P, []⟩)) ∧
      Kept h (Function.update W s.cells.size (some ⟨P, []⟩)) (s.allocate source).2 := by
  have hlater : Promises.Later s.cells.size W
      (Function.update W s.cells.size (some ⟨P, []⟩)) := by
    refine ⟨fun c Q hQ => ⟨Q.known, List.prefix_refl _, ?_⟩, fun c hc hn => ?_⟩
    · rw [Function.update_of_ne (hs.lt_size hQ).ne, hQ]
    · rw [Function.update_of_ne hc.ne, hn]
  refine ⟨hlater, fun c Q hQ => ?_⟩
  by_cases hc : c = s.cells.size
  · subst hc
    rw [Function.update_self] at hQ
    cases hQ
    refine ⟨⟨#[], some source, none⟩, by simp [Session.cells_allocate], List.prefix_refl _, h0, ?_⟩
    rintro q ⟨⟩
    exact hp.extend hlater.1
  · rw [Function.update_of_ne hc] at hQ
    obtain ⟨cell, hcell, hh⟩ := hs.allocate source c Q hQ
    exact ⟨cell, hcell, hh.extend hlater.1⟩

/-- All items that a promised cell has are known. -/
theorem know (hs : Kept h W s) {K : List Value} (hc : W c = some ⟨P, K⟩) :
    ∃ cell, s.cells[c]? = some cell ∧
      Promises.Later s.cells.size W (Function.update W c (some ⟨P, cell.items.toList⟩)) ∧
      Kept h (Function.update W c (some ⟨P, cell.items.toList⟩)) s := by
  obtain ⟨cell, hcell, hh⟩ := hs c _ hc
  refine ⟨cell, hcell, ?_⟩
  have hlater : Promises.Later s.cells.size W
      (Function.update W c (some ⟨P, cell.items.toList⟩)) := by
    refine ⟨fun j Q hQ => ?_, fun j _ hn => ?_⟩
    · by_cases hj : j = c
      · subst hj
        cases hc.symm.trans hQ
        exact ⟨_, hh.1, Function.update_self ..⟩
      · exact ⟨Q.known, List.prefix_refl _, by rw [Function.update_of_ne hj, hQ]⟩
    · rw [Function.update_of_ne (fun hj => by simp [hj, hc] at hn), hn]
  refine ⟨hlater, fun j Q hQ => ?_⟩
  by_cases hj : j = c
  · subst hj
    rw [Function.update_self] at hQ
    cases hQ
    exact ⟨cell, hcell, List.prefix_refl _, hh.2.1, fun q hq => (hh.2.2 q hq).extend hlater.1⟩
  · rw [Function.update_of_ne hj] at hQ
    obtain ⟨cell', hcell', hh'⟩ := hs j Q hQ
    exact ⟨cell', hcell', hh'.extend hlater.1⟩

end Kept

/-- A draw from a session with `n` cells has kept the promises, some more may have been made, and
what was to hold of the items given holds of them with the one that is drawn. -/
def Onward (h : Host) (W : Promises) (n : Nat) (P : List Value → Prop) (L : List Value) (d : Draw)
    (t : Session) : Prop :=
  ∃ W', Promises.Later n W W' ∧ Kept h W' t ∧
    ∀ v q, d = .item v q → P (L ++ [v]) ∧ Keeps h W' P (L ++ [v]) q

section

variable {W : Promises} {P : List Value → Prop} {L : List Value} {p : Producer} {s t u : Session}
  {d : Draw} {n : Nat}

theorem keeps_anything : Keeps h W (fun _ => True) [] p := .steady fun _ _ => trivial

/-- A producer that needs no promise goes on without one. -/
theorem Onward.of_steady (hp : ∀ M, Loose h p M → P (L ++ M)) (hd : Draws h p s d t)
    (hw : Onward h W n (fun _ => True) [] d t) : Onward h W n P L d t := by
  obtain ⟨W', hW, ht, -⟩ := hw
  refine ⟨W', hW, ht, fun v q hv => ⟨hp _ (.item (hv ▸ hd) .nil), .steady fun M hM => ?_⟩⟩
  rw [List.append_assoc]
  exact hp _ (.item (hv ▸ hd) hM)

theorem Onward.stay (hs : Kept h W t) (hd : ∀ v q, d ≠ .item v q) : Onward h W n P L d t :=
  ⟨W, .refl n W, hs, fun v q hv => absurd hv (hd v q)⟩

theorem Onward.le {m : Nat} (hn : n ≤ m) (h' : Onward h W m P L d t) : Onward h W n P L d t := by
  obtain ⟨W', hW, ht, hd⟩ := h'
  exact ⟨W', (Promises.Later.refl n W).trans hn hW, ht, hd⟩

/-- One draw after another one. -/
theorem Onward.andThen {d' : Draw} {Q : List Value → Prop} {M : List Value}
    (h₁ : Onward h W n P L d t) (hn : n ≤ t.cells.size)
    (h₂ : ∀ W', W.Extends W' → Kept h W' t → Onward h W' t.cells.size Q M d' u) :
    Onward h W n Q M d' u := by
  obtain ⟨W', hW, ht, -⟩ := h₁
  obtain ⟨W'', hW', hu, hd⟩ := h₂ W' hW.1 ht
  exact ⟨W'', hW.trans hn hW', hu, hd⟩

end

/-- The source of a cell is advanced as promised. -/
theorem Onward.keep {W : Promises} {s t u : Session} {cell : Nat} {items : Array Value}
    {source source' : Producer} {v : Value} {d : Draw} {P : List Value → Prop} {L : List Value}
    (hcell : s.cells[cell]? = some ⟨items, some source, none⟩) (hs : Kept h W s)
    (hd : Draws h source (s.detach cell) (.item v source') t)
    (ih : ∀ {W P L}, Kept h W (s.detach cell) → Keeps h W P L source →
      Onward h W (s.detach cell).cells.size P L (.item v source') t)
    (hu : ∀ W', W.Extends W' → Kept h W' (t.keep cell v source') →
      Onward h W' (t.keep cell v source').cells.size P L d u) :
    Onward h W s.cells.size P L d u := by
  have hlt : cell < s.cells.size := (Array.getElem?_eq_some_iff.1 hcell).choose
  have hsize := hd.size_le
  have hidle := hd.idle (Session.idle_detach hcell)
  rw [Session.cells_detach, Array.size_modify] at hsize ih
  -- What is promised of the cell is promised of its source.
  have hkeep : ∃ W', Promises.Later s.cells.size W W' ∧ Kept h W' (t.keep cell v source') := by
    rcases hP : W cell with _ | P
    · obtain ⟨W', hW, ht, -⟩ := ih (hs.detach cell) keeps_anything
      refine ⟨W', hW, ht.modify (Session.cells_keep ..) fun P _ hP' => ?_⟩
      exact absurd (hP'.symm.trans (hW.2 cell hlt hP)) (by simp)
    · obtain ⟨_, hcell', -, -, hsource⟩ := hs cell P hP
      cases hcell.symm.trans hcell'
      obtain ⟨W', hW, ht, hv⟩ := ih (hs.detach cell) (hsource source rfl)
      refine ⟨W', hW, ht.modify (Session.cells_keep ..) fun P' c hP' hc => ?_⟩
      cases hc.symm.trans hidle.1
      obtain ⟨_, hcell', hknown, -, -⟩ := ht cell P' hP'
      cases hcell'.symm.trans hidle.1
      obtain ⟨known, -, hP''⟩ := hW.1 cell P hP
      cases hP'.symm.trans hP''
      obtain ⟨hv, hq⟩ := hv v source' rfl
      refine ⟨?_, by simpa using hv, fun q hq' => ?_⟩
      · simpa using hknown.trans (List.prefix_append _ _)
      · cases hq'
        simpa using hq
  obtain ⟨W', hW, ht⟩ := hkeep
  obtain ⟨W'', hW', hu, hd⟩ := hu W' hW.1 ht
  rw [Session.cells_keep, Array.size_modify] at hW'
  exact ⟨W'', hW.trans hsize hW', hu, hd⟩

/-- No draw breaks a promise. -/
theorem Draws.onward {p : Producer} {s t : Session} {d : Draw} (hd : Draws h p s d t)
    {W : Promises} {P : List Value → Prop} {L : List Value} (hs : Kept h W s)
    (hk : Keeps h W P L p) : Onward h W s.cells.size P L d t := by
  induction hd generalizing W P L with
  | done | fail => exact .stay hs (by simp)
  | emit =>
    cases hk with
    | steady hp =>
      refine .of_steady hp .emit ⟨W, .refl _ W, hs, fun _ _ _ => ⟨trivial, ?_⟩⟩
      exact .steady fun _ _ => trivial
  | append_item hd ih =>
    cases hk with
    | steady hp =>
      obtain ⟨W', hW, ht, -⟩ := ih hs keeps_anything
      refine .of_steady hp (.append_item hd) ⟨W', hW, ht, fun _ _ _ => ⟨trivial, ?_⟩⟩
      exact .steady fun _ _ => trivial
    | visiting hQ hb hc hi hL hf =>
      obtain ⟨W', hW, ht, -⟩ := ih hs keeps_anything
      refine ⟨W', hW, ht, fun v q hv => ?_⟩
      cases hv
      obtain ⟨rfl, hv⟩ := hf _ _ _ _ hd
      obtain ⟨M, hM, hK⟩ := hs.exists_list hc
      refine ⟨hQ M _ hM (hv.trans ((List.take_sublist ..).trans hK.sublist)), ?_⟩
      exact (Keeps.visiting hQ hb hc hi hv fun _ _ _ _ hd => nomatch hd).extend hW.1
  | append_finish hd hd' ih ih' =>
    cases hk with
    | steady hp =>
      exact .of_steady hp (.append_finish hd hd')
        ((ih hs keeps_anything).andThen hd.size_le fun _ _ ht => ih' ht keeps_anything)
    | visiting hQ hb hc hi hL hf =>
      exact (ih hs keeps_anything).andThen hd.size_le fun W' hW ht =>
        ih' ht ((Keeps.reading hQ hb hc hi hL).extend hW)
  | append_failed hd ih =>
    obtain ⟨W', hW, ht, -⟩ := ih hs keeps_anything
    exact ⟨W', hW, ht, fun _ _ hv => nomatch hv⟩
  | ask ha hd ih =>
    cases hk with
    | steady hp => exact .of_steady hp (.ask ha hd) (ih hs keeps_anything)
  | ask_failed | fetch_failed | apply_failed => exact .stay hs (by simp)
  | fetch_item hl hd ih =>
    cases hk with
    | steady hp => exact .of_steady hp (.fetch_item hl hd) (ih hs keeps_anything)
  | fetch_finish hl hd ih =>
    cases hk with
    | steady hp => exact .of_steady hp (.fetch_finish hl hd) (ih hs keeps_anything)
  | unread_item hl hd hd' ih ih' =>
    obtain ⟨-, items, hcell, -⟩ := Session.look_eq_unread.1 hl
    cases hk with
    | steady hp =>
      exact .of_steady hp (.unread_item hl hd hd')
        (.keep hcell hs hd ih fun W' _ ht => ih' ht keeps_anything)
  | unread_finish hl hd hd' ih ih' =>
    have hsize := hd.size_le
    rw [Session.cells_detach, Array.size_modify] at hsize ih
    cases hk with
    | steady hp =>
      exact .of_steady hp (.unread_finish hl hd hd')
        ((ih (hs.detach _) keeps_anything).andThen hsize fun _ _ ht => ih' ht keeps_anything)
  | unread_failed hl hd ih =>
    rw [Session.cells_detach, Array.size_modify] at ih
    obtain ⟨W', hW, ht, -⟩ := ih (hs.detach _) keeps_anything
    exact ⟨W', hW, ht.spoil _ _, fun _ _ hv => nomatch hv⟩
  | length hd ih =>
    cases hk with
    | steady hp => exact .of_steady hp (.length hd) (ih hs keeps_anything)
  | @share source k s t d hd ih =>
    have hsize : s.cells.size ≤ (s.allocate source).2.cells.size := by
      simp [Session.cells_allocate]
    cases hk with
    | steady hp =>
      exact .of_steady hp (.share hd) (.le hsize (ih (hs.allocate source) keeps_anything))
    | selection hQ hb h0 hsource =>
      obtain ⟨hW, hs⟩ := hs.promise h0 hsource
      obtain ⟨W', hW', ht, hd⟩ := ih hs (.reading hQ (hb _) (Function.update_self ..)
        (Nat.zero_le _) (List.Sublist.refl _))
      exact ⟨W', hW.trans hsize hW', ht, hd⟩
  | gather_more hd hm hd' ih ih' =>
    cases hk with
    | steady hp =>
      exact .of_steady hp (.gather_more hd hm hd')
        ((ih hs keeps_anything).andThen hd.size_le fun _ _ ht => ih' ht keeps_anything)
    | gather hk =>
      exact (ih hs keeps_anything).andThen hd.size_le fun _ hW ht =>
        ih' ht (.gather fun kept => (hk kept).extend hW)
    | choice hQ hM hsource =>
      obtain ⟨W', hW, ht, hv⟩ := ih hs hsource
      beta_reduce at hm
      split at hm <;> cases hm
      obtain ⟨W'', hW', hu, hd'⟩ := ih' ht (.choice hQ (hv _ _ rfl).1 (hv _ _ rfl).2)
      exact ⟨W'', hW.trans hd.size_le hW', hu, hd'⟩
  | gather_enough hd hm hd' ih ih' =>
    cases hk with
    | steady hp =>
      exact .of_steady hp (.gather_enough hd hm hd')
        ((ih hs keeps_anything).andThen hd.size_le fun _ _ ht => ih' ht keeps_anything)
    | gather hk =>
      exact (ih hs keeps_anything).andThen hd.size_le fun _ hW ht => ih' ht ((hk _).extend hW)
    | choice hQ hM hsource =>
      obtain ⟨W', hW, ht, hv⟩ := ih hs hsource
      beta_reduce at hm
      split at hm <;> cases hm
      have chosen : ∀ M, Loose h (ofList [_]) M → _ := fun N hN =>
        hQ _ N (hv _ _ rfl).1 (((Lists.ofList _).loose hN).sublist.trans (List.sublist_append_right ..))
      obtain ⟨W'', hW', hu, hd'⟩ := ih' ht (.steady (P := P) (L := []) chosen)
      exact ⟨W'', hW.trans hd.size_le hW', hu, hd'⟩
  | gather_fail hd hm ih =>
    obtain ⟨W', hW, ht, -⟩ := ih hs keeps_anything
    exact ⟨W', hW, ht, fun _ _ hv => nomatch hv⟩
  | gather_finish hd hd' ih ih' =>
    cases hk with
    | steady hp =>
      exact .of_steady hp (.gather_finish hd hd')
        ((ih hs keeps_anything).andThen hd.size_le fun _ _ ht => ih' ht keeps_anything)
    | gather hk =>
      exact (ih hs keeps_anything).andThen hd.size_le fun _ hW ht => ih' ht ((hk _).extend hW)
    | choice hQ hM hsource =>
      exact (ih hs keeps_anything).andThen hd.size_le fun _ _ ht => ih' ht <| .steady fun N hN =>
        hQ _ N hM (((Lists.ofList _).loose hN).sublist.trans (List.nil_sublist _))
  | gather_failed hd ih =>
    obtain ⟨W', hW, ht, -⟩ := ih hs keeps_anything
    exact ⟨W', hW, ht, fun _ _ hv => nomatch hv⟩
  | @forEach_item i _ _ body _ v _ _ _ _ hd hd' ih ih' =>
    cases hk with
    | steady hp =>
      exact .of_steady hp (.forEach_item hd hd')
        ((ih hs keeps_anything).andThen hd.size_le fun _ _ ht => ih' ht keeps_anything)
    | reading hQ hb hc hi hL =>
      obtain ⟨rfl, cell, hcell, hv⟩ := hd.of_read
      obtain ⟨W', hW, ht, -⟩ := ih hs keeps_anything
      obtain ⟨K', hK, hc⟩ := hW.1 _ _ hc
      obtain ⟨_, hcell', hknown, -⟩ := ht _ _ hc
      cases hcell.symm.trans hcell'
      obtain ⟨_, hcell', hW', ht⟩ := ht.know hc
      cases hcell.symm.trans hcell'
      have hlt : i < cell.items.toList.length := by
        simpa using (Array.getElem?_eq_some_iff.1 hv).choose
      have hL' : (L ++ [v]).Sublist (cell.items.toList.take (i + 1)) := by
        rw [List.take_add_one, Array.getElem?_toList, hv]
        refine List.Sublist.append ?_ (List.Sublist.refl [v])
        obtain ⟨more, hmore⟩ := hK.trans hknown
        rw [← hmore, List.take_append_of_le_length hi]
        exact hL
      have hvisit : ∀ s w q t, Draws h (body i v) s (.item w q) t →
          q = .done ∧ (L ++ [w]).Sublist (cell.items.toList.take (i + 1)) := by
        intro s w q t hd
        obtain ⟨rfl, rfl⟩ := hb _ _ _ _ _ _ hd
        exact ⟨rfl, hL'⟩
      obtain ⟨W'', hW'', hu, hd'⟩ := ih' ht (.visiting hQ hb (Function.update_self ..) hlt
        ((List.sublist_append_left ..).trans hL') hvisit)
      exact ⟨W'', hW.trans hd.size_le (hW'.trans (Nat.le_refl _) hW''), hu, hd'⟩
  | forEach_finish hd hd' ih ih' =>
    cases hk with
    | steady hp =>
      exact .of_steady hp (.forEach_finish hd hd')
        ((ih hs keeps_anything).andThen hd.size_le fun _ _ ht => ih' ht keeps_anything)
    | reading =>
      obtain ⟨W', hW, ht, -⟩ := ih hs keeps_anything
      cases hd'
      exact ⟨W', hW, ht, fun _ _ hv => nomatch hv⟩
  | forEach_failed hd ih =>
    obtain ⟨W', hW, ht, -⟩ := ih hs keeps_anything
    exact ⟨W', hW, ht, fun _ _ hv => nomatch hv⟩
  | apply hf hd ih =>
    cases hk with
    | steady hp => exact .of_steady hp (.apply hf hd) (ih hs keeps_anything)
  | call hd ih =>
    cases hk with
    | steady hp => exact .of_steady hp (.call hd) (ih hs keeps_anything)
  | log hd ih => 
    cases hk with
    | steady hp => exact .of_steady hp (.log hd) (ih (hs.of_cells rfl) keeps_anything)
  | pause hd ih =>
    cases hk with
    | steady hp => exact .of_steady hp (.pause hd) (ih hs keeps_anything)
  | tick hd ih =>
    cases hk with
    | steady hp => exact .of_steady hp (.tick hd) (ih (hs.of_cells rfl) keeps_anything)

/-- What a producer keeps holds of whatever it begins with. -/
theorem Keeps.begins {p q : Producer} {s t : Session} {vs : List Value} {P : List Value → Prop}
    (h0 : P []) (hk : Keeps h (fun _ => none) P [] p) (hb : Begins h p s vs q t) : P vs := by
  suffices ∀ {W L}, P L → Kept h W s → Keeps h W P L p → P (L ++ vs) from
    this h0 (fun _ _ hP => by cases hP) hk
  clear hk
  induction hb with
  | nil =>
    intro W L hL _ _
    rwa [List.append_nil]
  | item hd _ ih =>
    intro W L _ hs hk
    obtain ⟨W', -, ht, hv⟩ := hd.onward hs hk
    obtain ⟨hL, hk⟩ := hv _ _ rfl
    simpa using ih hL ht hk

/-- What a producer keeps holds of all that it yields. -/
theorem Keeps.yields {p : Producer} {s t : Session} {vs : List Value} {e : Option Error}
    {P : List Value → Prop} (h0 : P []) (hk : Keeps h (fun _ => none) P [] p)
    (hy : Yields h p s vs e t) : P vs := by
  obtain ⟨q, u, hb⟩ := hy.begins
  exact hk.begins h0 hb

end Producer

end XPath
