import Mathlib.Data.List.Forall2
import XPath.Proofs.Lazy.Promises

/-!
# Contents

The content of a value is what it comes to when everything that it shares is read to the end. Members
are computed as they are read, so that a value has a content is said of a session and of all later
ones: in whatever order sequences are read meanwhile and new ones are put into cells, a member reads
as the same items. Contents hold no functions, and no member of them fails.
-/

namespace XPath

open Producer

inductive Content where
  | atomic (a : Atomic)
  | node (n : Node)
  | array (members : List (List Content))
  | map (entries : List (Atomic × List Content))

variable {h : Host}

/-! ## Later sessions -/

/-- Sequences have been read and new ones put into cells. -/
inductive Later (h : Host) : Session → Session → Prop
  | refl {s} : Later h s s
  | read {s t shared i o u} : Later h s t → Reads h shared i t o u → Later h s u
  | allocate {s t source} : Later h s t → Later h s (t.allocate source).2

variable {s t u : Session}

theorem Later.trans (hst : Later h s t) (htu : Later h t u) : Later h s u := by
  induction htu with
  | refl => exact hst
  | read _ hr ih => exact .read ih hr
  | allocate _ ih => exact .allocate ih

/-! ## Values and their contents -/

namespace Content

mutual

/-- The content of the value in the session. -/
def Of (h : Host) : Content → Value → Session → Prop
  | atomic a, v, _ => v = .atomic a
  | node n, v, _ => v = .node n
  | array members, v, s => ∃ shared, v = .array shared ∧ OfMembers h members shared s
  | map entries, v, s => ∃ shared, v = .map shared ∧ OfEntries h entries shared s

/-- The contents of the items of a shared sequence, from an index on. -/
def OfItems (h : Host) : List Content → Nat → Shared → Session → Prop
  | [], i, shared, s => ∃ t, Reads h shared i s none t
  | x :: xs, i, shared, s =>
    (∃ v t, Reads h shared i s (some v) t ∧ x.Of h v t) ∧ OfItems h xs (i + 1) shared s

def OfMembers (h : Host) : List (List Content) → List Shared → Session → Prop
  | [], members, _ => members = []
  | xs :: rest, members, s =>
    ∃ shared members', members = shared :: members' ∧
      (∀ t, Later h s t → OfItems h xs 0 shared t) ∧ OfMembers h rest members' s

def OfEntries (h : Host) : List (Atomic × List Content) → Entries → Session → Prop
  | [], entries, _ => entries = []
  | (key, xs) :: rest, entries, s =>
    ∃ shared entries', entries = (key, shared) :: entries' ∧
      (∀ t, Later h s t → OfItems h xs 0 shared t) ∧ OfEntries h rest entries' s

end

/-- The contents that a shared sequence reads as from an index on, now and later. -/
def OfShared (h : Host) (xs : List Content) (i : Nat) (shared : Shared) (s : Session) : Prop :=
  ∀ t, Later h s t → OfItems h xs i shared t

theorem ofMembers_iff {members : List (List Content)} {shared : List Shared} :
    OfMembers h members shared s ↔
      List.Forall₂ (fun xs m => OfShared h xs 0 m s) members shared := by
  induction members generalizing shared with
  | nil =>
    rw [OfMembers, List.forall₂_nil_left_iff]
  | cons xs rest ih =>
    rw [OfMembers, List.forall₂_cons_left_iff]
    simp only [ih, OfShared]
    constructor
    · rintro ⟨m, ms, rfl, hm, hms⟩
      exact ⟨m, ms, hm, hms, rfl⟩
    · rintro ⟨m, ms, hm, hms, rfl⟩
      exact ⟨m, ms, rfl, hm, hms⟩

theorem ofEntries_iff {entries : List (Atomic × List Content)} {shared : Entries} :
    OfEntries h entries shared s ↔
      List.Forall₂ (fun x e => e.1 = x.1 ∧ OfShared h x.2 0 e.2 s) entries shared := by
  induction entries generalizing shared with
  | nil => rw [OfEntries, List.forall₂_nil_left_iff]
  | cons x rest ih =>
    rw [OfEntries, List.forall₂_cons_left_iff]
    simp only [ih, OfShared]
    constructor
    · rintro ⟨m, ms, rfl, hm, hms⟩
      exact ⟨_, ms, ⟨rfl, hm⟩, hms, rfl⟩
    · rintro ⟨⟨_, m⟩, ms, ⟨rfl, hm⟩, hms, rfl⟩
      exact ⟨m, ms, rfl, hm, hms⟩

theorem OfShared.later {xs : List Content} {i : Nat} {shared : Shared} (hs : OfShared h xs i shared s)
    (ht : Later h s t) : OfShared h xs i shared t := fun u hu => hs u (ht.trans hu)

theorem OfShared.tail {x : Content} {xs : List Content} {i : Nat} {shared : Shared}
    (hs : OfShared h (x :: xs) i shared s) : OfShared h xs (i + 1) shared s :=
  fun t ht => (hs t ht).2

/-- A value keeps its content. -/
theorem Of.later {x : Content} {v : Value} (hv : x.Of h v s) (ht : Later h s t) : x.Of h v t := by
  cases x with
  | atomic | node => exact hv
  | array members =>
    obtain ⟨shared, rfl, hm⟩ := hv
    exact ⟨shared, rfl, ofMembers_iff.2 ((ofMembers_iff.1 hm).imp fun _ _ hm => hm.later ht)⟩
  | map entries =>
    obtain ⟨shared, rfl, he⟩ := hv
    exact ⟨shared, rfl,
      ofEntries_iff.2 ((ofEntries_iff.1 he).imp fun _ _ he => ⟨he.1, he.2.later ht⟩)⟩

/-- A producer that is put into a cell, now or later, reads as the contents. -/
def OfSequence (h : Host) (xs : List Content) (p : Producer) (s : Session) : Prop :=
  ∀ t, Later h s t → OfShared h xs 0 (t.allocate p).1 (t.allocate p).2

end Content

/-! ## Listed sequences -/

/-- Some of the listed items have been read from the cell, and the others are still to be read. -/
def Cell.Lists (vs : List Value) (c : Cell) : Prop :=
  ∃ k ≤ vs.length, c.items.toList = vs.take k ∧ c.error = none ∧
    (c.source = some (ofList (vs.drop k)) ∨ c.source = none ∧ k = vs.length)

/-- The cell exists and lists the items. -/
def Session.Lists (s : Session) (c : Nat) (vs : List Value) : Prop :=
  ∃ cell, s.cells[c]? = some cell ∧ cell.Lists vs

namespace Session.Lists

variable {c : Nat} {vs : List Value}

theorem of_cells (hs : s.Lists c vs) (ht : t.cells = s.cells) : t.Lists c vs := by
  rwa [Session.Lists, ht]

theorem allocate (hs : s.Lists c vs) (p : Producer) : (s.allocate p).2.Lists c vs := by
  obtain ⟨cell, hcell, hl⟩ := hs
  have : c < s.cells.size := (Array.getElem?_eq_some_iff.1 hcell).choose
  exact ⟨cell, by simp [cells_allocate, Array.getElem?_push, hcell, Nat.ne_of_lt this], hl⟩

theorem new (s : Session) (vs : List Value) :
    (s.allocate (ofList vs)).2.Lists s.cells.size vs :=
  ⟨⟨#[], some (ofList vs), none⟩, by simp [cells_allocate], 0, Nat.zero_le _, rfl, rfl, .inl rfl⟩

theorem modify {f : Cell → Cell} {j : Nat} (hs : s.Lists c vs) (hj : j ≠ c)
    (ht : t.cells = s.cells.modify j f) : t.Lists c vs := by
  obtain ⟨cell, hcell, hl⟩ := hs
  exact ⟨cell, by simp [ht, Array.getElem?_modify, hj, hcell], hl⟩

/-- One item more has been read, or the end has been met. -/
theorem step {source : Producer} {d : Draw} (hs : s.Lists c vs) {i : Nat} {shared : Shared}
    (hl : s.look shared i = .unread c source) (hd : Draws h source (s.detach c) d t) :
    (∃ v rest, d = .item v rest ∧ (t.keep c v rest).Lists c vs) ∨ d = .finish ∧ t.Lists c vs := by
  obtain ⟨-, items, hcell, -⟩ := look_eq_unread.1 hl
  obtain ⟨_, hcell', k, hk, hitems, -, hsource⟩ := hs
  cases hcell.symm.trans hcell'
  obtain hsource | ⟨hsource, -⟩ := hsource
  case inr => cases hsource
  cases hsource
  rcases hdrop : vs.drop k with _ | ⟨v, rest⟩
  · rw [hdrop] at hd
    cases hd
    refine .inr ⟨rfl, ⟨items, none, none⟩, ?_, k, hk, hitems, rfl, .inr ⟨rfl, ?_⟩⟩
    · simp [cells_detach, Array.getElem?_modify, hcell]
    · have := List.drop_eq_nil_iff.1 hdrop
      omega
  · rw [hdrop] at hd
    cases hd
    have hlt : k < vs.length := by
      by_contra hge
      rw [List.drop_eq_nil_of_le (Nat.le_of_not_lt hge)] at hdrop
      cases hdrop
    have hv : vs[k] = v ∧ vs.drop (k + 1) = rest := by
      rw [List.drop_eq_getElem_cons hlt, List.cons.injEq] at hdrop
      exact hdrop
    refine .inl ⟨v, _, rfl, ⟨items.push v, some (ofList rest), none⟩, ?_, k + 1, hlt, ?_, rfl,
      .inl (by rw [hv.2])⟩
    · simp [cells_keep, cells_detach, Array.getElem?_modify, hcell]
    · rw [Array.toList_push, hitems, ← hv.1, List.take_concat_get']

end Session.Lists

/-- No drawing takes a cell away from its list. -/
theorem Producer.Draws.keeps_list {p : Producer} {d : Draw} {c : Nat} {vs : List Value}
    (hd : Draws h p s d t) (hs : s.Lists c vs) : t.Lists c vs := by
  induction hd with
  | done | fail | emit | ask_failed | fetch_failed | apply_failed => exact hs
  | append_item _ ih | append_failed _ ih | ask _ _ ih | fetch_item _ _ ih | fetch_finish _ _ ih
  | length _ ih | gather_failed _ ih | forEach_failed _ ih | apply _ _ ih | call _ ih
  | pause _ ih | gather_fail _ _ ih => exact ih hs
  | append_finish _ _ ih ih' | gather_more _ _ _ ih ih' | gather_enough _ _ _ ih ih'
  | gather_finish _ _ ih ih' | forEach_item _ _ ih ih' | forEach_finish _ _ ih ih' =>
    exact ih' (ih hs)
  | log _ ih | tick _ ih => exact ih (hs.of_cells rfl)
  | share _ ih => exact ih (hs.allocate _)
  | @unread_item shared j k cell source source' v s t u d hl hd _ ih ih' =>
    refine ih' ?_
    by_cases hc : cell = c
    · subst hc
      rcases hs.step hl hd with ⟨v, rest, hv, ht⟩ | ⟨hv, -⟩
      · cases hv
        exact ht
      · cases hv
    · exact (ih (hs.modify hc (Session.cells_detach s cell))).modify hc (Session.cells_keep ..)
  | @unread_finish shared j k cell source s t u d hl hd _ ih ih' =>
    refine ih' ?_
    by_cases hc : cell = c
    · subst hc
      rcases hs.step hl hd with ⟨v, rest, hv, -⟩ | ⟨-, ht⟩
      · cases hv
      · exact ht
    · exact ih (hs.modify hc (Session.cells_detach s cell))
  | @unread_failed shared j k cell source e s t hl hd ih =>
    by_cases hc : cell = c
    · subst hc
      rcases hs.step hl hd with ⟨v, rest, hv, -⟩ | ⟨hv, -⟩ <;> cases hv
    · exact (ih (hs.modify hc (Session.cells_detach s cell))).modify hc (Session.cells_spoil ..)

theorem Producer.Reads.keeps_list {shared : Shared} {i c : Nat} {o : Option Value} {vs : List Value}
    (hr : Reads h shared i s o t) (hs : s.Lists c vs) : t.Lists c vs := by
  have hd : Draws h (.fetch shared i fun _ => .done) s .finish t := hr.fetch .done
  exact hd.keeps_list hs

theorem Later.keeps_list {c : Nat} {vs : List Value} (ht : Later h s t) (hs : s.Lists c vs) :
    t.Lists c vs := by
  induction ht with
  | refl => exact hs
  | read _ hr ih => exact hr.keeps_list ih
  | allocate _ ih => exact ih.allocate _

/-- A cell that lists some items reads as these. -/
theorem Session.Lists.reads {c i : Nat} {vs : List Value} (hs : s.Lists c vs) :
    ∃ t, Reads h (.cell c) i s vs[i]? t := by
  obtain ⟨⟨items, source, error⟩, hcell, k, hk, hitems, rfl, hsource⟩ := hs
  dsimp only at hitems hsource
  have get : ∀ {items : Array Value} {k}, items.toList = vs.take k →
      items[i]? = if i < k then vs[i]? else none := fun hitems => by
    rw [← Array.getElem?_toList, hitems, List.getElem?_take]
  -- Each item that is read on the way to the index leaves fewer to be read.
  induction hn : i + 1 - k generalizing s items source k with
  | zero =>
    have hi : i < vs.length := by omega
    have hget := get hitems
    rw [if_pos (by omega), List.getElem?_eq_getElem hi] at hget
    rw [List.getElem?_eq_getElem hi]
    exact ⟨s, .item (by simp [look, hcell, hget])⟩
  | succ n ih =>
    have hget := get hitems
    rw [if_neg (by omega)] at hget
    rcases hsource with rfl | ⟨rfl, rfl⟩
    · have hl : s.look (.cell c) i = .unread c (ofList (vs.drop k)) :=
        look_eq_unread.2 ⟨rfl, items, hcell, hget⟩
      by_cases hk' : k < vs.length
      · rw [List.drop_eq_getElem_cons hk'] at hl
        have hcell' : ((s.detach c).keep c vs[k] (ofList (vs.drop (k + 1)))).cells[c]? =
            some ⟨items.push vs[k], some (ofList (vs.drop (k + 1))), none⟩ := by
          simp [cells_keep, cells_detach, Array.getElem?_modify, hcell]
        obtain ⟨t, ht⟩ := ih _ _ (k + 1) hk' hcell'
          (by rw [Array.toList_push, hitems, List.take_concat_get']) (.inl rfl) (by omega)
        exact ⟨t, .unread_item hl .emit ht⟩
      · have hi : vs[i]? = none := List.getElem?_eq_none (by omega)
        rw [List.drop_eq_nil_of_le (by omega)] at hl
        rw [hi]
        exact ⟨s.detach c, .unread_finish hl .done⟩
    · have hi : vs[i]? = none := List.getElem?_eq_none (by omega)
      rw [hi]
      exact ⟨s, .finish (by simp [look, hcell, hget])⟩

theorem reads_listed (vs : List Value) (i : Nat) : Reads h (.listed vs) i s vs[i]? s := by
  rcases hv : vs[i]? with _ | v
  · exact .finish (by simp [Session.look, hv])
  · exact .item (by simp [Session.look, hv])

namespace Content

/-- Where every index reads as its item, the contents are those of the items. -/
theorem ofItems_of_reads {xs : List Content} {vs : List Value} {shared : Shared}
    (hr : ∀ i, ∃ t, Reads h shared i s vs[i]? t) {i : Nat}
    (hv : List.Forall₂ (fun x v => x.Of h v s) xs (vs.drop i)) : OfItems h xs i shared s := by
  induction xs generalizing i with
  | nil =>
    have hi : vs[i]? = none := by
      rw [List.forall₂_nil_left_iff, List.drop_eq_nil_iff] at hv
      simpa using hv
    rw [OfItems, ← hi]
    exact hr i
  | cons x xs ih =>
    obtain ⟨v, rest, hx, hrest, hdrop⟩ := List.forall₂_cons_left_iff.1 hv
    have hi : vs[i]? = some v := by
      have : (vs.drop i)[0]? = vs[i + 0]? := List.getElem?_drop
      simpa [hdrop] using this.symm
    obtain ⟨t, ht⟩ := hr i
    rw [hi] at ht
    refine ⟨⟨v, t, ht, hx.later (.read .refl ht)⟩, ih ?_⟩
    rwa [← List.tail_drop, hdrop]

theorem ofShared_listed {xs : List Content} {vs : List Value}
    (hv : List.Forall₂ (fun x v => x.Of h v s) xs vs) : OfShared h xs 0 (.listed vs) s :=
  fun t ht => ofItems_of_reads (fun i => ⟨t, reads_listed vs i⟩)
    (List.Forall₂.imp (fun _ _ hx => hx.later ht) hv)

theorem ofSequence_ofList {xs : List Content} {vs : List Value}
    (hv : List.Forall₂ (fun x v => x.Of h v s) xs vs) : OfSequence h xs (ofList vs) s := by
  intro t ht u hu
  have hl : u.Lists t.cells.size vs := hu.keeps_list (.new t vs)
  exact ofItems_of_reads (fun i => hl.reads)
    (List.Forall₂.imp (fun _ _ hx => hx.later (.trans (.allocate ht) hu)) hv)

end Content

end XPath
