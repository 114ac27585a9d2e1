import XPath.Proofs.Expr.Trees
import XPath.Proofs.Lazy.Provision
import XPath.Proofs.Lazy.Weighing

/-!
# Logical operators

The operands of a logical operator are asked for their effective boolean values one after the other, up to
the first one that decides or fails (`Meaning.Decides`). This is all that driving the operator does, however
it is suspended and resumed (`Meaning.driven_firstDeciding`), so no operand is asked again once it has
answered, and operands after the deciding one may be any others (`Meaning.Decides.replace`).
-/

namespace XPath

open Producer

/-- The operator that stops at an operand with this boolean value. -/
def NaryOperator.stopping : Bool → NaryOperator
  | true => .or
  | false => .and

namespace Meaning

/-- An operand whose turn has come. -/
def begun (m : Meaning) (c : Context) (access : Access) : Sequence :=
  .ofProducer (.deferred fun _ => m c access)

/-- Operands are asked for their effective boolean values, one after the other, with delays in between. An
operand with the value that stops decides the outcome, one that fails is the outcome, and if the last
one asked is still being waited for, so is the outcome. If all have the other value, that is the outcome. -/
inductive Decides (h : Host) (stop : Bool) (c : Context) (access : Access) :
    List Meaning → Session → List Delay → Attempt (Option Value) → Session → Prop
  | all {s : Session} : Decides h stop c access [] s [] (.item (.boolean !stop)) s
  | here {m : Meaning} {ms : List Meaning} {s t : Session} {delays : List Delay} {o : Attempt Bool}
      {q : Sequence} :
      Sequence.Insists h (m.begun c access) s delays o q t → o ≠ .ready !stop →
      Decides h stop c access (m :: ms) s delays (o.map fun b => some (.boolean b)) t
  | passed {m : Meaning} {ms : List Meaning} {s t u : Session} {delays delays' : List Delay}
      {o : Attempt (Option Value)} {q : Sequence} :
      Sequence.Insists h (m.begun c access) s delays (.ready !stop) q t →
      Decides h stop c access ms t delays' o u →
      Decides h stop c access (m :: ms) s (delays ++ delays') o u

variable {h : Host} {stop : Bool} {c : Context} {access : Access} {m : Meaning}
  {ms after : List Meaning} {s t : Session} {delays : List Delay} {o : Attempt (Option Value)}
  {turn : Turn}

/-! ## Driving the operator -/

theorem driven_singleton {v : Value} :
    Driven h (singleton v) s delays turn ↔ delays = [] ∧ turn = ⟨.item v, .done, s⟩ := by
  have hturns : ∀ {turn}, Turns h (singleton v) s turn ↔ turn = ⟨.item v, .done, s⟩ := by
    intro turn
    constructor
    · rintro ⟨_ | fuel, rfl, ho⟩
      · exact absurd rfl ho
      · rfl
    · rintro rfl
      exact ⟨1, rfl, nofun⟩
  constructor
  · rintro (ht | ⟨ht, _⟩)
    · exact ⟨rfl, hturns.1 ht⟩
    · cases hturns.1 ht
  · rintro ⟨rfl, rfl⟩
    exact .last (hturns.2 rfl)

/-- What follows an operand with this value. -/
def afterOperand (stop : Bool) (c : Context) (access : Access) (ms : List Meaning) (b : Bool) : Producer :=
  if b = stop then singleton (.boolean stop) else firstDeciding stop c access ms

theorem firstDeciding_cons :
    firstDeciding stop c access (m :: ms) =
      weigh [] (.deferred fun _ => m c access) (afterOperand stop c access ms) := truth_eq_weigh ..

theorem afterOperand_not : afterOperand stop c access ms (!stop) = firstDeciding stop c access ms :=
  if_neg (by cases stop <;> decide)

/-- What a driven operator comes to is decided by its operands. -/
theorem decides_of_driven (hd : Driven h (firstDeciding stop c access ms) s delays turn) :
    Decides h stop c access ms s delays turn.outcome turn.session := by
  induction ms generalizing s delays with
  | nil =>
    obtain ⟨rfl, rfl⟩ := driven_singleton.1 hd
    exact .all
  | cons m ms ih =>
    rw [firstDeciding_cons, driven_weigh (by decide)] at hd
    obtain ⟨first, second, o, q, t, rfl, hi, he⟩ := hd
    cases he with
    | @ready b _ _ _ _ hk =>
      by_cases hb : b = stop
      · subst hb
        rw [afterOperand, if_pos rfl] at hk
        obtain ⟨rfl, rfl⟩ := driven_singleton.1 hk
        rw [List.append_nil]
        exact .here hi (by cases b <;> nofun)
      · obtain rfl : b = !stop := Bool.eq_not_of_ne hb
        rw [afterOperand_not] at hk
        exact .passed hi (ih hk)
    | failed =>
      rw [List.append_nil]
      exact .here hi nofun
    | pending =>
      rw [List.append_nil]
      exact .here hi nofun

/-- What the operands decide is what the driven operator comes to; after a boolean value nothing is
left. -/
theorem driven_of_decides (hd : Decides h stop c access ms s delays o t) :
    ∃ rest, Driven h (firstDeciding stop c access ms) s delays ⟨o, rest, t⟩ ∧
      ∀ v, o = .item v → rest = .done := by
  induction hd with
  | all => exact ⟨.done, driven_singleton.2 ⟨rfl, rfl⟩, fun _ _ => rfl⟩
  | @here m ms s t delays o q hi hne =>
    have hdriven {turn : Turn} (he : Ensues h (afterOperand stop c access ms) o q t [] turn) :
        Driven h (firstDeciding stop c access (m :: ms)) s delays turn := by
      rw [firstDeciding_cons, driven_weigh (by decide)]
      exact ⟨delays, [], o, q, t, (List.append_nil _).symm, hi, he⟩
    obtain ⟨q₁, s₁, hw⟩ := hi.weighs
    cases o with
    | ready b =>
      obtain rfl : b = stop := by
        by_contra hb
        exact hne (congrArg _ (Bool.eq_not_of_ne hb))
      have hk : Driven h (afterOperand b c access ms b) t [] ⟨.item (.boolean b), .done, t⟩ := by
        rw [afterOperand, if_pos rfl]
        exact driven_singleton.2 ⟨rfl, rfl⟩
      exact ⟨.done, hdriven (.ready hk), fun _ _ => rfl⟩
    | failed e => exact ⟨.done, hdriven .failed, nofun⟩
    | pending topic =>
      obtain ⟨buffer, source, rfl, -⟩ := hw.suspended
      exact ⟨_, hdriven .pending, nofun⟩
    | exhausted => exact absurd rfl hw.ne_exhausted
  | @passed m ms s t u delays delays' o q hi _ ih =>
    obtain ⟨rest, hdriven, hrest⟩ := ih
    refine ⟨rest, ?_, hrest⟩
    rw [firstDeciding_cons, driven_weigh (by decide)]
    refine ⟨delays, delays', _, q, t, rfl, hi, .ready ?_⟩
    rwa [afterOperand_not]

/-! ## Operands that are not evaluated -/

/-- The outcome does not leave it to the operands that follow. -/
def Decisive (stop : Bool) (o : Attempt (Option Value)) : Prop :=
  o = .item (.boolean stop) ∨ ∃ e, o = .failed e

/-- An operand whose answer is decisive gives the same one whatever is waited for. -/
theorem decisive_ofExcept {stop : Bool} {o : Attempt Bool}
    (ho : Decisive stop (o.map fun b => some (.boolean b))) :
    ∃ r, o = .ofExcept r ∧ r ≠ .ok !stop := by
  rcases ho with ho | ⟨e, ho⟩
  · cases o with
    | ready b =>
      cases ho
      exact ⟨.ok stop, rfl, by cases stop <;> nofun⟩
    | _ => cases ho
  · cases o with
    | failed e => exact ⟨.error e, rfl, nofun⟩
    | _ => cases ho

/-- What follows the operands that have been decisive once can be replaced. -/
theorem Decides.replace {s₀ t₀ : Session} {delays₀ : List Delay} {o₀ : Attempt (Option Value)}
    (hd₀ : Decides h stop c access ms s₀ delays₀ o₀ t₀) (ho₀ : Decisive stop o₀)
    (hs : s.calm = s₀.calm) (after' : List Meaning)
    (hd : Decides h stop c access (ms ++ after) s delays o t) :
    Decides h stop c access (ms ++ after') s delays o t := by
  induction hd₀ generalizing s delays with
  | all =>
    rcases ho₀ with ho₀ | ⟨e, ho₀⟩
    · cases stop <;> cases ho₀
    · cases ho₀
  | @here m ms s₀ t₀ delays₀ o₀ q hi₀ hne =>
    obtain ⟨r, rfl, hr⟩ := decisive_ofExcept ho₀
    cases hd with
    | here hi hne => exact .here hi hne
    | passed hi _ =>
      have hi : Sequence.Insists h (m.begun c access) s _ (.ofExcept (.ok !stop)) _ _ := hi
      exact absurd (hi₀.unique (by decide) hs hi).1.symm hr
  | @passed m ms s₀ t₀ u₀ delays₀ delays₀' o₀ q hi₀ _ ih =>
    cases hd with
    | here hi hne => exact .here hi hne
    | @passed _ _ _ t _ delays delays' _ q' hi hrest =>
      have hi₀ : Sequence.Insists h (m.begun c access) s₀ _ (.ofExcept (.ok !stop)) _ _ := hi₀
      have hi' : Sequence.Insists h (m.begun c access) s _ (.ofExcept (.ok !stop)) _ _ := hi
      exact .passed hi (ih ho₀ (hi₀.unique (by decide) hs hi').2 hrest)

/-! ## What is delivered -/

theorem Decides.provides {v : Value} (hd : Decides h stop c access ms s delays (.item v) t) :
    (firstDeciding stop c access ms).Provides h s [v] none := by
  obtain ⟨rest, hdriven, hrest⟩ := driven_of_decides hd
  obtain rfl := hrest v rfl
  exact (Yields.item (hdriven.draws rfl) (.finish .done)).provides rfl

theorem Decides.provides_failed {e : Error}
    (hd : Decides h stop c access ms s delays (.failed e) t) :
    (firstDeciding stop c access ms).Provides h s [] (some e) := by
  obtain ⟨rest, hdriven, -⟩ := driven_of_decides hd
  exact (Yields.failed (hdriven.draws rfl)).provides rfl

theorem driven_iff_decides :
    (∃ rest, Driven h (firstDeciding stop c access ms) s delays ⟨o, rest, t⟩) ↔
      Decides h stop c access ms s delays o t := by
  constructor
  · rintro ⟨rest, hd⟩
    exact decides_of_driven hd
  · intro hd
    obtain ⟨rest, hdriven, -⟩ := driven_of_decides hd
    exact ⟨rest, hdriven⟩

end Meaning

namespace Expr

open Meaning

theorem evaluate_stopping {notes : Notes} (hn : notes.cached? = none) (stop : Bool) (es : List Expr)
    (c : Context) (access : Access) :
    (nary (.stopping stop) notes es).evaluate c access =
      .ok (firstDeciding stop c access (es.map evaluate)) := by
  have hmeanings : (operandsOf es).map (·.meaning) = es.map evaluate := by
    rw [operandsOf_eq, List.map_map]
    rfl
  rw [evaluate, Notes.recall, hn, ← hmeanings]
  cases stop <;> rfl

/-- What a logical operator comes to, however it is suspended and resumed, is what its operands decide,
asked for their effective boolean values in order and each of them until it has answered. If they decide on
a boolean value, this is the one item that the operator delivers, and if one of them fails, its error is
what the operator delivers. Operands after the one that stops the operator or fails can be replaced by
any others, and neither the outcome nor any suspension or session on the way to it changes. -/
theorem short_circuits (h : Host) {notes : Notes} (hn : notes.cached? = none) (stop : Bool)
    (es : List Expr) (c : Context) (access : Access) :
    ∃ p, (nary (.stopping stop) notes es).evaluate c access = .ok p ∧
      (∀ s delays o t, (∃ rest, Driven h p s delays ⟨o, rest, t⟩) ↔
        Decides h stop c access (es.map evaluate) s delays o t) ∧
      (∀ s delays b t, Decides h stop c access (es.map evaluate) s delays (.item (.boolean b)) t →
        p.Provides h s [.boolean b] none) ∧
      (∀ s delays e t, Decides h stop c access (es.map evaluate) s delays (.failed e) t →
        p.Provides h s [] (some e)) ∧
      ∀ first after, es = first ++ after → ∀ s delays₀ o₀ t₀,
        Decides h stop c access (first.map evaluate) s delays₀ o₀ t₀ → Decisive stop o₀ →
        ∀ notes' after', notes'.cached? = none →
          ∃ p', (nary (.stopping stop) notes' (first ++ after')).evaluate c access = .ok p' ∧
            ∀ delays o t, (∃ rest, Driven h p' s delays ⟨o, rest, t⟩) ↔
              ∃ rest, Driven h p s delays ⟨o, rest, t⟩ := by
  refine ⟨_, evaluate_stopping hn stop es c access, fun _ _ _ _ => driven_iff_decides,
    fun _ _ _ _ hd => hd.provides, fun _ _ _ _ hd => hd.provides_failed, ?_⟩
  rintro first after rfl s delays₀ o₀ t₀ hd₀ ho₀ notes' after' hn'
  refine ⟨_, evaluate_stopping hn' stop _ c access, fun delays o t => ?_⟩
  rw [driven_iff_decides, driven_iff_decides, List.map_append, List.map_append]
  exact ⟨hd₀.replace ho₀ rfl _, hd₀.replace ho₀ rfl _⟩

/-- A false operand, a child that the host is late to give, and a variable that is not bound. -/
theorem short_circuits_late :
    let host := (Host.ofForest [.element ⟨none, "r", none⟩ [] [.text "x"]]).deferred
    let root : Node := ⟨0, [], .element, some ⟨none, "r", none⟩, 1⟩
    let c := Context.initial (some (.node root)) []
    let operands := [leaf (.literal (.boolean false)) .blank, leaf (.step .child .anyKind) .blank,
      leaf (.variableRef ⟨none, "v"⟩) .blank]
    ∃ p, (nary .or .blank operands).evaluate c .live = .ok p ∧
      p.Provides host .empty [.boolean true] none := by
  intro host root c operands
  have hblank : Notes.blank.cached? = none := rfl
  obtain ⟨p, hp, -, hboolean, -⟩ := short_circuits host hblank true operands c .live
  let delay : Delay := ⟨some ⟨.children, root⟩, [some ⟨.children, root⟩]⟩
  have hfalse : Sequence.Insists host
      (begun (evaluate (leaf (.literal (.boolean false)) .blank)) c .live) .empty [] (.ready !true) _
      .empty :=
    .last 6 rfl nofun
  have hchild : Sequence.Insists host
      (begun (evaluate (leaf (.step .child .anyKind) .blank)) c .live) .empty [delay] (.ready true) _ _ :=
    .again 8 rfl (.last 8 rfl nofun)
  exact ⟨p, hp, hboolean _ _ _ _ (.passed hfalse (.here hchild nofun))⟩

end Expr

end XPath
