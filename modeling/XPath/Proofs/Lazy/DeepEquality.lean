import XPath.Proofs.Lazy.Combinators
import XPath.Proofs.Lazy.Contents
import XPath.Proofs.Nodes.Equality

/-!
# Deep equality

The comparison of two values by goals comes to the equality of their contents
(`Goal.AllSay.decides`), however their members are computed and in whatever order the comparison reads them.
-/

namespace XPath

open Producer

namespace Content

/-! ## Equality of contents -/

/-- What the first entry with the same key holds. -/
def lookup (entries : List (Atomic × List Content)) (key : Atomic) : Option (List Content) :=
  (entries.find? fun (k, _) => k.sameKey key).map (·.2)

mutual

/-- Whether two contents are deep-equal: kinds agree, maps and arrays are of one size, and what is
held at every key or position is equal item by item. -/
def equal (f : Forest) : Content → Content → Bool
  | atomic a, atomic b => a.deepEqual b
  | node a, node b => f.deepEqual a b
  | array xs, array ys => membersEqual f xs ys
  | map xs, map ys => xs.length = ys.length && entriesEqual f xs ys
  | _, _ => false

def itemsEqual (f : Forest) : List Content → List Content → Bool
  | [], [] => true
  | x :: xs, y :: ys => equal f x y && itemsEqual f xs ys
  | _, _ => false

def membersEqual (f : Forest) : List (List Content) → List (List Content) → Bool
  | [], [] => true
  | xs :: rest, ys :: rest' => itemsEqual f xs ys && membersEqual f rest rest'
  | _, _ => false

/-- Every entry of the one map has an equal one under its key in the other map. -/
def entriesEqual (f : Forest) :
    List (Atomic × List Content) → List (Atomic × List Content) → Bool
  | [], _ => true
  | (key, xs) :: rest, ys =>
    (match lookup ys key with
      | some zs => itemsEqual f xs zs
      | none => false) && entriesEqual f rest ys

end

theorem sizeOf_pos (x : Content) : 0 < sizeOf x := by
  cases x with
  | atomic => rw [atomic.sizeOf_spec]; omega
  | node => rw [node.sizeOf_spec]; omega
  | array => rw [array.sizeOf_spec]; omega
  | map => rw [map.sizeOf_spec]; omega

theorem membersEqual_of_length {f : Forest} {xs ys : List (List Content)}
    (hl : xs.length ≠ ys.length) : membersEqual f xs ys = false := by
  induction xs generalizing ys with
  | nil =>
    cases ys with
    | nil => exact absurd rfl hl
    | cons => rw [membersEqual] <;> simp
  | cons x xs ih =>
    cases ys with
    | nil => rw [membersEqual] <;> simp
    | cons y ys => rw [membersEqual, ih (by simpa using hl), Bool.and_false]

end Content

variable {h : Host} {f : Forest} {s t u : Session}

/-! ## Goals and their verdicts -/

namespace Goal

/-- The goal has a verdict in the session and in later ones. The number bounds what there is to be
compared. -/
inductive Says (h : Host) (f : Forest) (s : Session) : Goal → Bool → Nat → Prop
  | items {x y a b} :
      Content.Of h x a s → Content.Of h y b s → Says h f s (.items a b) (x.equal f y) (sizeOf x)
  | members {xs ys a b i} :
      Content.OfShared h xs i a s → Content.OfShared h ys i b s →
      Says h f s (.members a b i) (Content.itemsEqual f xs ys) (sizeOf xs)
  | differ : Says h f s .differ false 0

/-- All goals together have a verdict. -/
inductive AllSay (h : Host) (f : Forest) (s : Session) : List Goal → Bool → Nat → Prop
  | nil : AllSay h f s [] true 0
  | cons {g gs b c n m} :
      Says h f s g b n → AllSay h f s gs c m → AllSay h f s (g :: gs) (b && c) (n + m)

variable {g : Goal} {gs gs' : List Goal} {b c : Bool} {n m : Nat}

theorem Says.later (hg : Says h f s g b n) (ht : Later h s t) : Says h f t g b n := by
  cases hg with
  | items hx hy => exact .items (hx.later ht) (hy.later ht)
  | members hx hy => exact .members (hx.later ht) (hy.later ht)
  | differ => exact .differ

theorem AllSay.later (hg : AllSay h f s gs b n) (ht : Later h s t) : AllSay h f t gs b n := by
  induction hg with
  | nil => exact .nil
  | cons hg _ ih => exact .cons (hg.later ht) ih

theorem AllSay.append (hg : AllSay h f s gs b n) (hg' : AllSay h f s gs' c m) :
    AllSay h f s (gs ++ gs') (b && c) (n + m) := by
  induction hg with
  | nil => simpa using hg'
  | @cons g gs b d n k hg _ ih =>
    rw [Bool.and_assoc, Nat.add_assoc]
    exact .cons hg ih

open Content in
theorem allSay_members {xs ys : List (List Content)} {as bs : List Shared}
    (hx : OfMembers h xs as s) (hy : OfMembers h ys bs s) (hl : as.length = bs.length) :
    ∃ n, n < sizeOf xs ∧ AllSay h f s ((as.zip bs).map fun (a, b) => members a b 0)
      (membersEqual f xs ys) n := by
  rw [ofMembers_iff] at hx hy
  induction hx generalizing ys bs with
  | nil =>
    obtain rfl := List.eq_nil_of_length_eq_zero hl.symm
    cases hy
    rw [membersEqual]
    exact ⟨0, by simp, .nil⟩
  | @cons x a xs as ha _ ih =>
    cases hy with
    | nil => simp at hl
    | @cons y b ys bs hb hbs =>
      obtain ⟨n, hn, hs⟩ := ih hbs (by simpa using hl)
      rw [membersEqual]
      exact ⟨sizeOf x + n, by simp; omega, .cons (.members ha hb) hs⟩

open Content in
theorem lookup_of {ys : List (Atomic × List Content)} {bs : Entries}
    (hy : OfEntries h ys bs s) (key : Atomic) :
    (lookup ys key = none ∧ bs.get? key = none) ∨
      ∃ zs b, lookup ys key = some zs ∧ bs.get? key = some b ∧ OfShared h zs 0 b s := by
  rw [ofEntries_iff] at hy
  induction hy with
  | nil => exact .inl ⟨rfl, rfl⟩
  | @cons y b ys bs hb _ ih =>
    obtain ⟨k, zs⟩ := y
    obtain ⟨_, b⟩ := b
    obtain ⟨rfl, hb⟩ := hb
    rw [lookup, Entries.get?, List.find?_cons, List.find?_cons]
    dsimp only
    split
    · exact .inr ⟨_, _, rfl, rfl, hb⟩
    · exact ih

open Content in
theorem allSay_entries {xs ys : List (Atomic × List Content)} {as bs : Entries}
    (hx : OfEntries h xs as s) (hy : OfEntries h ys bs s) :
    ∃ n, n < sizeOf xs ∧ AllSay h f s (entries as bs) (entriesEqual f xs ys) n := by
  rw [ofEntries_iff] at hx
  induction hx with
  | nil => 
    rw [entriesEqual]
    exact ⟨0, by simp, .nil⟩
  | @cons x a xs as ha _ ih =>
    obtain ⟨n, hn, hs⟩ := ih
    obtain ⟨key, x⟩ := x
    obtain ⟨key', a⟩ := a
    obtain ⟨rfl, ha⟩ := ha
    rw [entriesEqual, entries, List.map_cons]
    dsimp only
    rcases lookup_of hy key' with ⟨hz, hb⟩ | ⟨zs, b, hz, hb, hzb⟩
    · rw [hz, hb]
      exact ⟨0 + n, by simp; omega, .cons .differ hs⟩
    · rw [hz, hb]
      exact ⟨sizeOf x + n, by simp; omega, .cons (.members ha hzb) hs⟩

/-! ## What a comparison draws -/

/-- The verdict is drawn from the goals, and a later session left behind. -/
def Decides (h : Host) (s : Session) (gs : List Goal) (b : Bool) : Prop :=
  ∃ t, Later h s t ∧ Draws h (.call (.equal .live gs)) s (.item (.boolean b) .done) t

theorem Decides.earlier (ht : Later h s t) (hd : Decides h t gs b)
    (hdraw : ∀ d u, Draws h (.call (.equal .live gs)) t d u →
      Draws h (.call (.equal .live gs')) s d u) : Decides h s gs' b := by
  obtain ⟨u, hu, hd⟩ := hd
  exact ⟨u, ht.trans hu, hdraw _ _ hd⟩

theorem Decides.refused (ht : Later h s t)
    (hdraw : ∀ d u, Draws h (.singleton (.boolean false)) t d u →
      Draws h (.call (.equal .live gs)) s d u) : Decides h s gs (false && b) :=
  ⟨t, ht, hdraw _ _ .emit⟩

open Content in
/-- Two items are compared when the goals that they unfold to can be decided. -/
theorem decides_items (hh : h.answer = (Host.ofForest f).answer) {x y : Content} {a b : Value}
    (hx : x.Of h a s) (hy : y.Of h b s)
    (hrest : ∀ {gs' c k}, k < sizeOf x → AllSay h f s gs' c k → Decides h s (gs' ++ gs) (c && d)) :
    Decides h s (.items a b :: gs) (x.equal f y && d) := by
  have met : ∀ {e : Bool}, (∀ d u,
      Draws h (if e then .call (.equal .live gs) else .singleton (.boolean false)) s d u →
        Draws h (.call (.equal .live (.items a b :: gs))) s d u) →
      Decides h s (.items a b :: gs) (e && d) := by
    intro e hdraw
    cases e with
    | true => exact (hrest x.sizeOf_pos .nil).earlier .refl hdraw
    | false => exact .refused .refl hdraw
  cases x with
  | atomic p =>
    obtain rfl := hx
    cases y with
    | atomic q =>
      obtain rfl := hy
      rw [Content.equal]
      exact met fun _ _ hd => .call hd
    | node q =>
      obtain rfl := hy
      simp only [Content.equal]
      exact .refused .refl fun _ _ hd => .call hd
    | array | map =>
      obtain ⟨_, rfl, -⟩ := hy
      simp only [Content.equal]
      exact .refused .refl fun _ _ hd => .call hd
  | node p =>
    obtain rfl := hx
    cases y with
    | node q =>
      obtain rfl := hy
      have hrun : (p.deepEqual q).run h = .ok (f.deepEqual p q) := by
        rw [Task.run_eq_of_answer hh, Forest.deepEqual_run]
      rw [Content.equal]
      exact met fun _ _ hd => .call (.perform hrun hd)
    | atomic q =>
      obtain rfl := hy
      simp only [Content.equal]
      exact .refused .refl fun _ _ hd => .call hd
    | array | map =>
      obtain ⟨_, rfl, -⟩ := hy
      simp only [Content.equal]
      exact .refused .refl fun _ _ hd => .call hd
  | array xs =>
    obtain ⟨as, rfl, hx⟩ := hx
    cases y with
    | array ys =>
      obtain ⟨bs, rfl, hy⟩ := hy
      rw [Content.equal]
      by_cases hl : as.length = bs.length
      · obtain ⟨n, hn, hs⟩ := allSay_members hx hy hl
        refine (hrest (by simp; omega) hs).earlier .refl fun _ _ hd => .call ?_
        rw [Call.body, unfold, if_pos hl]
        exact hd
      · rw [membersEqual_of_length]
        · refine .refused .refl fun _ _ hd => .call ?_
          rw [Call.body, unfold, if_neg hl]
          exact hd
        · rwa [(ofMembers_iff.1 hx).length_eq, (ofMembers_iff.1 hy).length_eq]
    | atomic | node =>
      obtain rfl := hy
      simp only [Content.equal]
      exact .refused .refl fun _ _ hd => .call hd
    | map =>
      obtain ⟨_, rfl, -⟩ := hy
      simp only [Content.equal]
      exact .refused .refl fun _ _ hd => .call hd
  | map xs =>
    obtain ⟨as, rfl, hx⟩ := hx
    cases y with
    | map ys =>
      obtain ⟨bs, rfl, hy⟩ := hy
      have hlx := (ofEntries_iff.1 hx).length_eq
      have hly := (ofEntries_iff.1 hy).length_eq
      rw [Content.equal, hlx, hly]
      by_cases hl : as.length = bs.length
      · obtain ⟨n, hn, hs⟩ := allSay_entries hx hy
        rw [decide_eq_true hl, Bool.true_and]
        refine (hrest (by simp; omega) hs).earlier .refl fun _ _ hd => .call ?_
        rw [Call.body, unfold, if_pos hl]
        exact hd
      · rw [decide_eq_false hl, Bool.false_and]
        refine .refused .refl fun _ _ hd => .call ?_
        rw [Call.body, unfold, if_neg hl]
        exact hd
    | atomic | node =>
      obtain rfl := hy
      simp only [Content.equal]
      exact .refused .refl fun _ _ hd => .call hd
    | array =>
      obtain ⟨_, rfl, -⟩ := hy
      simp only [Content.equal]
      exact .refused .refl fun _ _ hd => .call hd

open Content in
/-- Two sequences are compared item by item, the left item being read first. -/
theorem decides_members {xs ys : List Content} {a b : Shared} {i : Nat}
    (hx : OfShared h xs i a s) (hy : OfShared h ys i b s)
    (hrest : ∀ {t gs' c k}, Later h s t → k < sizeOf xs → AllSay h f t gs' c k →
      Decides h t (gs' ++ gs) (c && d)) :
    Decides h s (.members a b i :: gs) (itemsEqual f xs ys && d) := by
  have hread := hx s .refl
  cases xs with
  | nil =>
    obtain ⟨t, ha⟩ := hread
    have ht : Later h s t := .read .refl ha
    have hread := hy t ht
    cases ys with
    | nil =>
      obtain ⟨u, hb⟩ := hread
      have hu := ht.read hb
      rw [itemsEqual]
      exact (hrest hu (by simp) .nil).earlier hu fun _ _ hd =>
        .call (ha.fetch (hb.fetch hd))
    | cons y ys =>
      obtain ⟨⟨w, u, hb, -⟩, -⟩ := hread
      simp only [itemsEqual]
      exact .refused (ht.read hb) fun _ _ hd => .call (ha.fetch (hb.fetch hd))
  | cons x xs =>
    obtain ⟨⟨v, t, ha, hv⟩, -⟩ := hread
    have ht : Later h s t := .read .refl ha
    have hread := hy t ht
    cases ys with
    | nil =>
      obtain ⟨u, hb⟩ := hread
      simp only [itemsEqual]
      exact .refused (ht.read hb) fun _ _ hd => .call (ha.fetch (hb.fetch hd))
    | cons y ys =>
      obtain ⟨⟨w, u, hb, hw⟩, -⟩ := hread
      have hu := ht.read hb
      have hgoals : AllSay h f u [.items v w, .members a b (i + 1)]
          (x.equal f y && (itemsEqual f xs ys && true)) (sizeOf x + (sizeOf xs + 0)) :=
        .cons (.items (hv.later (.read .refl hb)) hw)
          (.cons (.members (hx.tail.later hu) (hy.tail.later hu)) .nil)
      rw [Bool.and_true] at hgoals
      rw [itemsEqual]
      exact (hrest hu (by simp) hgoals).earlier hu fun _ _ hd =>
        .call (ha.fetch (hb.fetch hd))

/-- What goals with a verdict draw is the verdict. -/
theorem AllSay.decides (hh : h.answer = (Host.ofForest f).answer) (hs : AllSay h f s gs b n) :
    Decides h s gs b := by
  induction n using Nat.strongRecOn generalizing s gs b with
  | ind n ih =>
    cases hs with
    | nil => exact ⟨s, .refl, .call .emit⟩
    | @cons g gs b d k m hg hgs =>
      cases hg with
      | differ => exact .refused .refl fun _ _ hd => .call hd
      | items hx hy =>
        exact decides_items hh hx hy fun hk hs => ih _ (by omega) (hs.append hgs)
      | members hx hy =>
        exact decides_members hx hy fun ht hk hs =>
          ih _ (by omega) (hs.append (hgs.later ht))

end Goal

end XPath
