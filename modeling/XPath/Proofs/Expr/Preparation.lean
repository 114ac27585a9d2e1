import Mathlib.Data.Fintype.EquivFin
import XPath.Proofs.Expr.Likeness
import XPath.Proofs.Lazy.Chronicles

/-!
# Preparing trees in order

Preparation evaluates constants ahead of time, and so it may leave sequences behind that are still to be
computed: members of a cached array, arguments bound by a cached function. Every reading of a constant
is recorded, and what it leaves is in order again (`Expr.prepare_orderly`). The tree that comes out
refers to cells that are known.
-/

namespace XPath

open List Producer

variable {h : Host} {w w' : World} {r r' : Realm} {s s' t : Session} {D D' : Finset Nat} {F : Set Nat}
  {static : StaticContext} {fuel k n : Nat}

/-! ## Collecting -/

theorem Producer.failed_collect (fuel : Nat) (drawn : List Value) (p : Producer) (s : Session)
    (hs : s.Failed n) : (collect h fuel drawn p s).2.Failed n := by
  induction fuel generalizing drawn p s with
  | zero => exact hs
  | succ fuel ih =>
    have hnext := failed_next (h := h) fuel p s hs
    rw [collect]
    split
    · exact ih _ _ _ hnext
    all_goals exact hnext

/-- What is collected refers to cells that are known. -/
theorem Chronicle.collect {drawn : List Value} {p : Producer} (hs : Chronicle h w r D F s)
    (hk : k ∉ D) (hp : p.Alike (r.ties (.reading k)) p)
    (hdrawn : Forall₂ (Value.Alike (r.shared .known)) drawn drawn) (fuel : Nat)
    (hF : ∀ n ∈ F, ¬(collect h fuel drawn p s).2.Failed n) :
    ∃ w' r', r ≤ r' ∧ Chronicle h w' r' (insert k D) F (collect h fuel drawn p s).2 ∧
      ∀ items, (collect h fuel drawn p s).1 = .ready items →
        Forall₂ (Value.Alike (r'.shared .known)) items items := by
  induction fuel generalizing w r s drawn p with
  | zero => exact ⟨w, r, le_rfl, hs.gone (Finset.subset_insert k D), fun _ h => by cases h⟩
  | succ fuel ih =>
    have hfirst (n : Nat) (hn : n ∈ F) : ¬(next h fuel p s).session.Failed n := by
      intro hf
      refine hF n hn ?_
      rw [Producer.collect]
      split
      · exact failed_collect _ _ _ _ hf
      all_goals exact hf
    obtain ⟨w', r', -, hle, hgone, hlive, ht⟩ := hs.turn hk hp fuel hfirst
    have hdrawn := hdrawn.imp fun _ _ h => h.mono (Realm.scope_mono hle _ .known)
    rw [Producer.collect] at hF ⊢
    generalize next h fuel p s = turn at hF hgone hlive ht
    obtain ⟨(_ | v) | _ | _ | _, rest, u⟩ := turn
    case ready.some =>
      obtain ⟨-, hv, hrest⟩ := ht
      have hv : v.Alike (r'.scope (.reading k) .known) v := hv
      rw [r'.scope_reading] at hv
      obtain ⟨w'', r'', hle', hu, hitems⟩ := ih (hlive id) hrest (.cons hv hdrawn) hF
      exact ⟨w'', r'', hle.trans hle', hu, hitems⟩
    case ready.none =>
      refine ⟨w', r', hle, hgone, fun items hitems => ?_⟩
      cases hitems
      exact rel_reverse hdrawn
    all_goals exact ⟨w', r', hle, hgone, fun _ h => by cases h⟩

/-! ## Trees -/

namespace Expr

theorem Within.notes {ρ : Matching} {e : Expr} (he : e.Within ρ) : e.notes.Within ρ := by
  cases e <;> rw [Within] at he <;> simp only [Expr.notes, he]

theorem Within.withNotes {ρ : Matching} {e : Expr} {notes : Notes} (he : e.Within ρ)
    (hn : notes.Within ρ) : (e.withNotes notes).Within ρ := by
  cases e <;> rw [Within] at he <;> simp only [Expr.withNotes, Within, hn, he, and_self]

theorem failed_prepareNode {e : Expr} (hs : s.Failed n) :
    (prepareNode static fuel e s).2.Failed n := by
  unfold prepareNode
  dsimp only
  split
  · split
    next p _ =>
      have hcollect := failed_collect (h := .absent) fuel [] p s hs
      split <;> simp_all
    · exact hs
  · exact hs

mutual

theorem failed_prepare : ∀ (e : Expr) (s : Session), s.Failed n → (prepare static fuel e s).2.Failed n
  | .leaf op notes, s, hs => by
    rw [prepare]
    exact failed_prepareNode hs
  | .signed sign notes e, s, hs => by
    rw [prepare]
    exact failed_prepareNode (failed_prepare e s hs)
  | .binary op notes l r, s, hs => by
    rw [prepare]
    exact failed_prepareNode (failed_prepare r _ (failed_prepare l s hs))
  | .nary op notes es, s, hs => by
    rw [prepare]
    exact failed_prepareNode (failed_prepareAll es s hs)

theorem failed_prepareAll : ∀ (es : List Expr) (s : Session), s.Failed n →
    (prepareAll static fuel es s).2.Failed n
  | [], s, hs => by
    rw [prepareAll]
    exact hs
  | e :: es, s, hs => by
    rw [prepareAll]
    exact failed_prepareAll es _ (failed_prepare e s hs)

end

/-- A node is prepared in order. -/
theorem prepareNode_orderly {e : Expr} (hs : r.Orderly D F s) (he : e.Within (r.shared .known))
    (hstatic : static.Within (r.shared .known))
    (hF : ∀ n ∈ F, ¬(prepareNode static fuel e s).2.Failed n) :
    ∃ r' D', r ≤ r' ∧ r'.Orderly D' F (prepareNode static fuel e s).2 ∧
      (prepareNode static fuel e s).1.Within (r'.shared .known) := by
  have hnotes : Notes.Within (r.shared .known)
      { e.notes with static? := e.notes.static?.or (some static) } := by
    refine ⟨fun static' hmem => ?_, he.notes.cached⟩
    cases hn : e.notes.static? with
    | none =>
      rw [hn] at hmem
      cases hmem
      exact hstatic
    | some noted =>
      rw [hn] at hmem
      cases hmem
      exact he.notes.static _ hn
  have he := he.withNotes hnotes
  have same : ∃ r' D', r ≤ r' ∧ r'.Orderly D' F s ∧ Within (r'.shared .known)
      (e.withNotes { e.notes with static? := e.notes.static?.or (some static) }) :=
    ⟨r, D, le_rfl, hs, he⟩
  unfold prepareNode at hF ⊢
  dsimp only at hF ⊢
  split
  case isFalse => exact same
  case isTrue hconst =>
  rw [if_pos hconst] at hF
  split
  case h_2 => exact same
  case h_1 p hp =>
  rw [hp] at hF
  dsimp only at hF
  have hlike := evaluate_respects he _ le_rfl _ _ Context.empty_alike .detached
  rw [hp] at hlike
  cases hlike with
  | ok hlike =>
  obtain ⟨k, hk⟩ := Infinite.exists_notMem_finset D
  rw [← r.scope_reading k] at hlike
  have hcollect := (hs.chronicle (h := .absent)).collect hk hlike.alike .nil fuel
  rcases hc : collect .absent fuel [] p s with ⟨_ | _ | _ | _, u⟩ <;> rw [hc] at hF hcollect
  case exhausted | pending => exact same
  all_goals obtain ⟨w', r', hle, hu, hitems⟩ := hcollect hF
  case failed =>
    exact ⟨r', _, hle, hu.orderly, he.mono (Realm.scope_mono hle _ .known)⟩
  case ready items =>
    have hmono := Realm.scope_mono hle (.reading 0) .known
    refine ⟨r', _, hle, hu.orderly, (he.mono hmono).withNotes ⟨(hnotes.mono hmono).static, ?_⟩⟩
    rintro _ ⟨⟩
    exact hitems items rfl

mutual

/-- Preparation keeps a session in order, and what it caches in the tree refers to cells that are
known. -/
theorem prepare_orderly : ∀ (e : Expr) (r : Realm) (D : Finset Nat) (s : Session), r.Orderly D F s →
    e.Within (r.shared .known) → static.Within (r.shared .known) →
    (∀ n ∈ F, ¬(prepare static fuel e s).2.Failed n) →
    ∃ r' D', r ≤ r' ∧ r'.Orderly D' F (prepare static fuel e s).2 ∧
      (prepare static fuel e s).1.Within (r'.shared .known)
  | .leaf op notes, r, D, s, hs, he, hstatic, hF => by
    rw [prepare] at hF ⊢
    exact prepareNode_orderly hs he hstatic hF
  | .signed sign notes e, r, D, s, hs, he, hstatic, hF => by
    rw [prepare] at hF ⊢
    rw [Within] at he
    obtain ⟨r', D', hle, hs', he'⟩ := prepare_orderly e r D s hs he.2 hstatic fun n hn hf =>
      hF n hn (failed_prepareNode hf)
    have hmono := Realm.scope_mono hle (.reading 0) .known
    have hnode : (Expr.signed sign notes (prepare static fuel e s).1).Within (r'.shared .known) := by
      rw [Within]
      exact ⟨he.1.mono hmono, he'⟩
    obtain ⟨r'', D'', hle', h⟩ := prepareNode_orderly hs' hnode (hstatic.mono hmono) hF
    exact ⟨r'', D'', hle.trans hle', h⟩
  | .binary op notes e₁ e₂, r, D, s, hs, he, hstatic, hF => by
    rw [prepare] at hF ⊢
    rw [Within] at he
    obtain ⟨r₁, D₁, hle₁, hs₁, he₁⟩ := prepare_orderly e₁ r D s hs he.2.1 hstatic fun n hn hf =>
      hF n hn (failed_prepareNode (failed_prepare e₂ _ hf))
    have hmono₁ := Realm.scope_mono hle₁ (.reading 0) .known
    obtain ⟨r₂, D₂, hle₂, hs₂, he₂⟩ := prepare_orderly e₂ r₁ D₁ _ hs₁ (he.2.2.mono hmono₁)
      (hstatic.mono hmono₁) fun n hn hf => hF n hn (failed_prepareNode hf)
    have hmono₂ := Realm.scope_mono hle₂ (.reading 0) .known
    have hnode : (Expr.binary op notes (prepare static fuel e₁ s).1
        (prepare static fuel e₂ (prepare static fuel e₁ s).2).1).Within (r₂.shared .known) := by
      rw [Within]
      exact ⟨(he.1.mono hmono₁).mono hmono₂, he₁.mono hmono₂, he₂⟩
    obtain ⟨r', D', hle, h⟩ := prepareNode_orderly hs₂ hnode ((hstatic.mono hmono₁).mono hmono₂) hF
    exact ⟨r', D', (hle₁.trans hle₂).trans hle, h⟩
  | .nary op notes es, r, D, s, hs, he, hstatic, hF => by
    rw [prepare] at hF ⊢
    rw [Within] at he
    obtain ⟨r', D', hle, hs', he'⟩ := prepareAll_orderly es r D s hs he.2 hstatic fun n hn hf =>
      hF n hn (failed_prepareNode hf)
    have hmono := Realm.scope_mono hle (.reading 0) .known
    have hnode : (Expr.nary op notes (prepareAll static fuel es s).1).Within (r'.shared .known) := by
      rw [Within]
      exact ⟨he.1.mono hmono, he'⟩
    obtain ⟨r'', D'', hle', h⟩ := prepareNode_orderly hs' hnode (hstatic.mono hmono) hF
    exact ⟨r'', D'', hle.trans hle', h⟩

theorem prepareAll_orderly : ∀ (es : List Expr) (r : Realm) (D : Finset Nat) (s : Session),
    r.Orderly D F s → AllWithin (r.shared .known) es → static.Within (r.shared .known) →
    (∀ n ∈ F, ¬(prepareAll static fuel es s).2.Failed n) →
    ∃ r' D', r ≤ r' ∧ r'.Orderly D' F (prepareAll static fuel es s).2 ∧
      AllWithin (r'.shared .known) (prepareAll static fuel es s).1
  | [], r, D, s, hs, he, hstatic, hF => by
    rw [prepareAll]
    exact ⟨r, D, le_rfl, hs, he⟩
  | e :: es, r, D, s, hs, he, hstatic, hF => by
    rw [prepareAll] at hF ⊢
    rw [AllWithin] at he
    obtain ⟨r₁, D₁, hle₁, hs₁, he₁⟩ := prepare_orderly e r D s hs he.1 hstatic fun n hn hf =>
      hF n hn (failed_prepareAll es _ hf)
    have hmono₁ := Realm.scope_mono hle₁ (.reading 0) .known
    obtain ⟨r₂, D₂, hle₂, hs₂, he₂⟩ := prepareAll_orderly es r₁ D₁ _ hs₁ (he.2.mono hmono₁)
      (hstatic.mono hmono₁) hF
    refine ⟨r₂, D₂, hle₁.trans hle₂, hs₂, ?_⟩
    rw [AllWithin]
    exact ⟨he₁.mono (Realm.scope_mono hle₂ (.reading 0) .known), he₂⟩

end

end Expr

end XPath
