import XPath.Proofs.Lazy.Mimicry
import XPath.Proofs.Library.Calls

/-!
# Maps and arrays as functions

A map that is called looks its argument up as a key, and an array takes it for a position. The library
has functions for both, which read the argument another way: the call reads it to its end and asks for
one item, the function takes the first item. Either of them gets the argument converted to exactly one
item, so that it makes no difference (`Producer.IsSole`), but the errors name different functions. The
two come to the same up to the messages of errors (`Producer.Resembles`), and so do their callers
(`callable_looks_up`).
-/

namespace XPath

open Producer

/-! ## The same up to messages -/

/-- The same, or two failures with one code. -/
inductive UpToMessage {α : Type} (failed : Error → α) : α → α → Prop
  | self {x} : UpToMessage failed x x
  | failed {e e'} : e.code = e'.code → UpToMessage failed (failed e) (failed e')

namespace UpToMessage

variable {α : Type} {failed : Error → α} {x y z : α} {e : Error}

theorem eq_of_eq (h : UpToMessage failed x y) (hx : x = z) (hz : ∀ e, z ≠ failed e) : y = z := by
  cases h with
  | self => exact hx
  | failed => exact absurd hx.symm (hz _)

theorem of_eq_failed (h : UpToMessage failed x y) (hx : x = failed e)
    (hfailed : Function.Injective failed) : ∃ e', y = failed e' ∧ e.code = e'.code := by
  cases h with
  | self => exact ⟨e, hx, rfl⟩
  | failed hcode => exact ⟨_, rfl, hfailed hx ▸ hcode⟩

end UpToMessage

namespace Producer

/-- Whatever the first producer comes to, the second one comes to, up to the message of an error. -/
def Resembles (h : Host) (p q : Producer) : Prop :=
  ∀ s d t, Draws h p s d t → ∃ d', UpToMessage Draw.failed d d' ∧ Draws h q s d' t

variable {h : Host} {p q source : Producer} {s t : Session} {d : Draw}

theorem resembles_self (p : Producer) : Resembles h p p := fun _ _ _ hd => ⟨_, .self, hd⟩

theorem resembles_fail {e e' : Error} (he : e.code = e'.code) : Resembles h (fail e) (fail e') := by
  intro s d t hd
  obtain ⟨rfl, rfl⟩ := hd.of_fail
  exact ⟨_, .failed he, .fail⟩

theorem Resembles.yields {vs : List Value} {e : Option Error} (hpq : Resembles h p q)
    (hp : Yields h p s vs e t) : ∃ e', UpToMessage some e e' ∧ Yields h q s vs e' t := by
  cases hp with
  | finish hd =>
    obtain ⟨_, _ | _, hd'⟩ := hpq _ _ _ hd
    exact ⟨none, .self, .finish hd'⟩
  | failed hd =>
    obtain ⟨_, _ | hcode, hd'⟩ := hpq _ _ _ hd
    · exact ⟨_, .self, .failed hd'⟩
    · exact ⟨_, .failed hcode, .failed hd'⟩
  | item hd hy =>
    obtain ⟨_, _ | _, hd'⟩ := hpq _ _ _ hd
    exact ⟨_, .self, .item hd' hy⟩

theorem Resembles.responds {os : List (Attempt (Option Value))} (hpq : Resembles h p q)
    (hp : Responds h p s os) :
    ∃ os', List.Forall₂ (UpToMessage Attempt.failed) os os' ∧ Responds h q s os' := by
  have hself : ∀ os : List (Attempt (Option Value)), List.Forall₂ (UpToMessage Attempt.failed) os os :=
    fun _ => List.forall₂_same.2 fun _ _ => .self
  cases hp with
  | nil => exact ⟨[], .nil, .nil⟩
  | item hd hrest =>
    obtain ⟨_, _ | _, hd'⟩ := hpq _ _ _ hd
    exact ⟨_, hself _, .item hd' hrest⟩
  | finish n hd =>
    obtain ⟨_, _ | _, hd'⟩ := hpq _ _ _ hd
    exact ⟨_, hself _, .finish n hd'⟩
  | failed n hd =>
    obtain ⟨_, _ | hcode, hd'⟩ := hpq _ _ _ hd
    · exact ⟨_, hself _, .failed n hd'⟩
    · exact ⟨_, .cons (.failed hcode) (hself _), .failed n hd'⟩

/-! ## Arguments -/

/-- Steps that mean the same and continuations that resemble each other gather the same. -/
theorem Resembles.gather {step step' : Nat → List Value → Value → Gathering}
    {k k' : List Value → Producer}
    (hstep : ∀ i kept v, UpToMessage Gathering.fail (step i kept v) (step' i kept v))
    (hk : ∀ kept, Resembles h (k kept) (k' kept)) (i : Nat) (kept : List Value) (source : Producer) :
    Resembles h (gather step i kept source k) (gather step' i kept source k') := by
  intro s d t hd
  generalize hp : Producer.gather step i kept source k = p at hd
  induction hd generalizing i kept source with
  | gather_more hs hm _ _ ih =>
    cases hp
    obtain ⟨d', hsame, hd'⟩ := ih _ _ _ rfl
    exact ⟨d', hsame, .gather_more hs ((hstep _ _ _).eq_of_eq hm nofun) hd'⟩
  | gather_enough hs hm hd =>
    cases hp
    obtain ⟨d', hsame, hd'⟩ := hk _ _ _ _ hd
    exact ⟨d', hsame, .gather_enough hs ((hstep _ _ _).eq_of_eq hm nofun) hd'⟩
  | gather_fail hs hm =>
    cases hp
    obtain ⟨e', he', hcode⟩ := (hstep _ _ _).of_eq_failed hm fun _ _ => Gathering.fail.inj
    exact ⟨_, .failed hcode, .gather_fail hs he'⟩
  | gather_finish hs hd =>
    cases hp
    obtain ⟨d', hsame, hd'⟩ := hk _ _ _ _ hd
    exact ⟨d', hsame, .gather_finish hs hd'⟩
  | gather_failed hs =>
    cases hp
    exact ⟨_, .self, .gather_failed hs⟩
  | _ => cases hp

end Producer

/-- Converting an item gives the same, whatever the parameter is called. -/
theorem Value.convertTo_upToMessage (v : Value) (type : SequenceType) (place place' : ParameterPlace) :
    UpToMessage Except.error (v.convertTo type place) (v.convertTo type place') := by
  have hlocate : ∀ e : Error, (place.locate e).code = (place'.locate e).code := by
    intro e
    rw [ParameterPlace.locate, ParameterPlace.locate]
    split <;> rfl
  have hadmits : ∀ b : Bool,
      UpToMessage Except.error (if b then .ok v else .error (place.wrongType type v))
        (if b then .ok v else .error (place'.wrongType type v)) := by
    intro b
    cases b with
    | true => exact .self
    | false => exact .failed rfl
  obtain ⟨name, occurrence⟩ := type
  cases v with
  | atomic a =>
    cases name with
    | unknown text => exact .failed rfl
    | known t =>
      by_cases ht : t.isAtomic = true
      · simp only [convertTo, ht, if_true]
        cases a.convertTo t with
        | ok b => exact .self
        | error e => exact .failed (hlocate e)
      · simp only [convertTo, ht]
        exact hadmits _
  | node | map | array | function => exact hadmits _

namespace Producer

variable {h : Host} {p q source : Producer} {s t : Session} {d : Draw}

/-- An argument of at most one item is converted to the same, whatever the parameter is called. -/
theorem resembles_convert {type : SequenceType} (hsingle : type.occurrence.isSingle = true)
    (access : Access) (place place' : ParameterPlace) (p : Producer) :
    Resembles h (p.convert access type place) (p.convert access type place') := by
  have hw := type.not_isWidest hsingle
  rw [type.convert_single place hw hsingle, type.convert_single place' hw hsingle]
  refine .gather (fun i _ v => ?_) (fun held => ?_) 0 [] _
  · rw [SequenceType.hold, SequenceType.hold]
    split
    · exact .failed rfl
    · have hv := v.convertTo_upToMessage type place place'
      generalize v.convertTo type place = x, v.convertTo type place' = y at hv
      cases hv with
      | self => exact .self
      | failed hcode => exact .failed hcode
  · rw [SequenceType.finish, SequenceType.finish]
    split
    · exact resembles_self _
    · exact resembles_fail rfl

/-! ## Sole items -/

/-- The producer gives one item and nothing behind it, unless it fails. -/
def IsSole (h : Host) (p : Producer) : Prop :=
  ∀ s d t, Draws h p s d t → (∃ v, d = .item v .done) ∨ ∃ e, d = .failed e

theorem isSole_convert {type : SequenceType} (hone : type.occurrence = .exactlyOne) (access : Access)
    (place : ParameterPlace) (p : Producer) : IsSole h (p.convert access type place) := by
  have hsingle : type.occurrence.isSingle = true := by rw [hone]; rfl
  have hw := type.not_isWidest hsingle
  intro s d t hd
  rw [type.convert_single place hw hsingle] at hd
  rcases hd.of_gather with ⟨held, u, hd⟩ | he
  · rw [SequenceType.finish] at hd
    split at hd
    · next hallows =>
      rw [hone] at hallows
      obtain ⟨v, rfl⟩ := List.length_eq_one_iff.1 (of_decide_eq_true hallows)
      cases hd
      exact .inl ⟨v, rfl⟩
    · exact .inr ⟨_, hd.of_fail.1⟩
  · exact .inr he

/-- The only item goes on to a continuation, and so does an error that comes in its place. -/
inductive Through (h : Host) (p : Producer) (k : Value → Producer) (s : Session) (d : Draw)
    (t : Session) : Prop
  | item {v : Value} {u : Session} : Draws h p s (.item v .done) u → Draws h (k v) u d t →
      Through h p k s d t
  | failed {e : Error} : Draws h p s (.failed e) t → d = .failed e → Through h p k s d t

theorem IsSole.yields {vs : List Value} {e : Option Error} (hp : IsSole h p)
    (hy : Yields h p s vs e t) :
    (∃ v, vs = [v] ∧ e = none ∧ Draws h p s (.item v .done) t) ∨
      ∃ e', vs = [] ∧ e = some e' ∧ Draws h p s (.failed e') t := by
  cases hy with
  | finish hd => rcases hp _ _ _ hd with ⟨_, hv⟩ | ⟨_, he⟩ <;> contradiction
  | failed hd => exact .inr ⟨_, rfl, rfl, hd⟩
  | item hd hy =>
    rcases hp _ _ _ hd with ⟨_, hv⟩ | ⟨_, he⟩
    · cases hv
      obtain ⟨rfl, rfl, rfl⟩ := hy.unique (.finish .done)
      exact .inl ⟨_, rfl, rfl, hd⟩
    · cases he

/-- All items of a producer with a sole item are this one. -/
theorem IsSole.drain_iff {next : List Value → Producer} (hp : IsSole h p) :
    Draws h (drain p next) s d t ↔ Through h p (fun v => next [v]) s d t := by
  constructor
  · intro hd
    rcases hd.of_drain with ⟨vs, u, hy, hd⟩ | ⟨vs, e, hy, rfl⟩
    · rcases hp.yields hy with ⟨v, rfl, -, hv⟩ | ⟨_, -, he, -⟩
      · exact .item hv hd
      · cases he
    · rcases hp.yields hy with ⟨_, -, he, -⟩ | ⟨_, -, he, hfailed⟩
      · cases he
      · cases he
        exact .failed hfailed rfl
  · rintro (⟨hv, hd⟩ | ⟨he, rfl⟩)
    · exact Yields.drain (.item hv (.finish .done)) hd
    · exact .gather_failed he

/-- The first item of a producer with a sole item is this one. -/
theorem IsSole.first_iff {next : Option Value → Producer} (hp : IsSole h p) :
    Draws h (first p next) s d t ↔ Through h p (fun v => next (some v)) s d t := by
  constructor
  · intro hd
    cases hd with
    | gather_more hs hm hd => cases hm
    | gather_enough hs hm hd =>
      cases hm
      obtain ⟨_, hv⟩ | ⟨_, he⟩ := hp _ _ _ hs
      · cases hv
        exact .item hs hd
      · cases he
    | gather_fail hs hm => cases hm
    | gather_finish hs hd => rcases hp _ _ _ hs with ⟨_, hv⟩ | ⟨_, he⟩ <;> contradiction
    | gather_failed hs => exact .failed hs rfl
  · rintro (⟨hv, hd⟩ | ⟨he, rfl⟩)
    · exact .gather_enough hv rfl hd
    · exact .gather_failed he

/-- What goes through to continuations that resemble each other is the same up to messages. -/
theorem resembles_of_through {p' q' : Producer} {k k' : Value → Producer}
    (hp : ∀ s d t, Draws h p s d t ↔ Through h p' k s d t)
    (hq : ∀ s d t, Draws h q s d t ↔ Through h q' k' s d t) (hpq : Resembles h p' q')
    (hk : ∀ v, Resembles h (k v) (k' v)) : Resembles h p q := by
  intro s d t hd
  cases (hp s d t).1 hd with
  | item hv hd =>
    obtain ⟨_, _ | _, hv'⟩ := hpq _ _ _ hv
    obtain ⟨d', hsame, hd'⟩ := hk _ _ _ _ hd
    exact ⟨d', hsame, (hq s d' t).2 (.item hv' hd')⟩
  | failed he hd =>
    subst hd
    obtain ⟨_, _ | hcode, he'⟩ := hpq _ _ _ he
    · exact ⟨_, .self, (hq ..).2 (.failed he' rfl)⟩
    · exact ⟨_, .failed hcode, (hq ..).2 (.failed he' rfl)⟩

/-! ## Look-ups -/

variable {type : SequenceType} {access : Access} {place place' : ParameterPlace} {argument m : Producer}
  {v : Value} {next : List (Option Value) → Reply}

/-- The only item of an argument is a key as it is the first one, or neither. -/
theorem resembles_key (reply : Atomic → Reply) (v : Value) :
    Resembles h (ofExcept (soleKey [v] >>= reply)) (ofExcept (expectAtomic (some v) >>= reply)) ∧
      Resembles h (ofExcept (expectAtomic (some v) >>= reply)) (ofExcept (soleKey [v] >>= reply)) := by
  cases v with
  | atomic a => exact ⟨resembles_self _, resembles_self _⟩
  | node | map | array | function => exact ⟨resembles_fail rfl, resembles_fail rfl⟩

/-- A first argument that gives one item is passed over. -/
theorem draws_withFirsts_iff (hm : ∀ s, ∃ q, Draws h m s (.item v q) s) (hp : IsSole h p) :
    Draws h (withFirsts [m, p] next) s d t ↔
      Through h p (fun w => ofExcept (next [some v, some w])) s d t := by
  have hfirst : Draws h (withFirsts [m, p] next) s d t ↔
      Draws h (first p fun w => ofExcept (next [some v, w])) s d t := by
    obtain ⟨q, hq⟩ := hm s
    constructor
    · intro hd
      cases hd with
      | gather_enough hs hstep hd =>
        cases hstep
        obtain ⟨hitem, rfl⟩ := hq.unique hs
        cases hitem
        exact hd
      | gather_more _ hstep | gather_fail _ hstep => cases hstep
      | gather_finish hs | gather_failed hs => cases (hq.unique hs).1
    · exact fun hd => .gather_enough hq rfl hd
  rw [hfirst, hp.first_iff]

/-- Reading an argument to its end and taking its first item come to the same key. -/
theorem resembles_lookUp (type : SequenceType) (hone : type.occurrence = .exactlyOne)
    (reply : Atomic → Reply) (hm : ∀ s, ∃ q, Draws h m s (.item v q) s)
    (hnext : ∀ w, next [some v, some w] = expectAtomic (some w) >>= reply) :
    Resembles h (withAll (argument.convert access type place) fun items => soleKey items >>= reply)
        (withFirsts [m, argument.convert access type place'] next) ∧
      Resembles h (withFirsts [m, argument.convert access type place'] next)
        (withAll (argument.convert access type place) fun items => soleKey items >>= reply) := by
  have hsingle : type.occurrence.isSingle = true := by rw [hone]; rfl
  have hsole := fun place => isSole_convert (h := h) hone access place argument
  have hargument : ∀ place place',
      Resembles h (argument.convert access type place) (argument.convert access type place') :=
    fun place place' => resembles_convert hsingle access place place' argument
  have hcalled : ∀ s d t,
      Draws h (withAll (argument.convert access type place) fun items => soleKey items >>= reply) s d t ↔
        Through h (argument.convert access type place)
          (fun w => ofExcept (soleKey [w] >>= reply)) s d t := fun s d t => (hsole place).drain_iff
  have hlibrary : ∀ s d t, Draws h (withFirsts [m, argument.convert access type place'] next) s d t ↔
      Through h (argument.convert access type place')
        (fun w => ofExcept (expectAtomic (some w) >>= reply)) s d t := by
    intro s d t
    rw [draws_withFirsts_iff hm (hsole place')]
    simp only [hnext]
  exact ⟨resembles_of_through hcalled hlibrary (hargument _ _) fun w => (resembles_key reply w).1,
    resembles_of_through hlibrary hcalled (hargument _ _) fun w => (resembles_key reply w).2⟩

/-! ## Callers -/

/-- Whatever a caller gets out of the first producer, he can get out of the second one, up to the
messages of errors: answer by answer, waiting as he likes, and all items at once. -/
structure SameReplies (h : Host) (p q : Producer) : Prop where
  answers : ∀ s os r t, Sequence.Delivers h (.ofProducer p) s os r t →
    ∃ os' r' t', List.Forall₂ (UpToMessage Attempt.failed) os os' ∧
      Sequence.Delivers h (.ofProducer q) s os' r' t'
  items : ∀ s fuel x t, materialize h fuel [] p s = some (x, t) →
    ∃ fuel' x' t', UpToMessage Except.error x x' ∧ materialize h fuel' [] q s = some (x', t') ∧
      t'.calm = t.calm

theorem Resembles.sameReplies (hpq : Resembles h p q) : SameReplies h p q where
  answers s os r t := by
    rintro ⟨xs, hnext, rfl, hserves⟩
    have hstage := hserves.stage (fun x hx => by rw [hnext x hx]; nofun) (.inl hnext)
    obtain ⟨os', hsame, hos'⟩ := hpq.responds hstage.responds
    obtain ⟨r', t', hdelivers⟩ := hos'.delivers rfl
    exact ⟨os', r', t', hsame, hdelivers⟩
  items s fuel x t hx := by
    obtain ⟨vs, e, hy, rfl⟩ := materialize_sound hx
    obtain ⟨e', hsame, hy'⟩ := hpq.yields hy
    obtain ⟨fuel', t', ht', hx'⟩ := hy'.materialize [] rfl
    refine ⟨fuel', _, t', ?_, hx', ht'⟩
    cases hsame with
    | self => exact .self
    | failed hcode => exact .failed hcode

end Producer

/-- The first argument of a look-up is what is looked up in. -/
theorem Producer.draws_convert_singleton {h : Host} (v : Value) (t : ItemType) (access : Access)
    (place : ParameterPlace) (ht : t.isAtomic = false) (hv : v.itemType.isSubtypeOf t = true)
    (s : Session) :
    ∃ q, Draws h ((singleton v).convert access ⟨.known t, .exactlyOne⟩ place) s (.item v q) s := by
  have hsource : SequenceType.source ⟨.known t, .exactlyOne⟩ access (singleton v) = ofList [v] :=
    if_neg (Bool.eq_false_iff.1 ht)
  refine Yields.convert_one ⟨.known t, .exactlyOne⟩ place ?_ rfl (.instance hv)
  rw [hsource]
  exact .ofList [v] s

/-- A map or an array that is called gives what the library function gives for the same argument, or
fails with the same code, whatever the argument is. -/
theorem callable_looks_up (h : Host) (c : CallContext) (argument : Producer) :
    (∀ entries, ∃ f p q, (Value.map entries).callable = .ok f ∧ f.invoke c [argument] = .ok p ∧
      (Function.builtin .mapGet).invoke c [.singleton (.map entries), argument] = .ok q ∧
      SameReplies h p q ∧ SameReplies h q p) ∧
    ∀ members, ∃ f p q, (Value.array members).callable = .ok f ∧ f.invoke c [argument] = .ok p ∧
      (Function.builtin .arrayGet).invoke c [.singleton (.array members), argument] = .ok q ∧
      SameReplies h p q ∧ SameReplies h q p := by
  constructor
  · intro entries
    refine ⟨.entryOf entries, _, _, rfl, rfl, rfl, ?_⟩
    suffices h : Resembles h _ _ ∧ Resembles h _ _ from ⟨h.1.sameReplies, h.2.sameReplies⟩
    exact resembles_lookUp ⟨.known .anyAtomicType, .exactlyOne⟩ rfl
      (fun key => .ok (lookUpKey entries key))
      (draws_convert_singleton (.map entries) .map _ _ rfl rfl) fun w => by cases w <;> rfl
  · intro members
    refine ⟨.memberOf members, _, _, rfl, rfl, rfl, ?_⟩
    suffices h : Resembles h _ _ ∧ Resembles h _ _ from ⟨h.1.sameReplies, h.2.sameReplies⟩
    exact resembles_lookUp ⟨.known .integer, .exactlyOne⟩ rfl
      (fun position => do return reader (← Members.get members (← position.expectInteger)))
      (draws_convert_singleton (.array members) .array _ _ rfl rfl) fun w => by cases w <;> rfl

end XPath
