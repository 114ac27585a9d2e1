import XPath.Expr.Evaluate
import XPath.Proofs.Lazy.Upkeep

/-!
# What expressions make of a context

If the literals of an expression, the functions that its names refer to and the context in which it is
evaluated hold only atomic values with a property that operations keep, so does what it evaluates to
(`Expr.evaluate_all`). Every operator hands on items of its operands, or makes new values by arithmetic
and of truth values. Preparation puts only such values into the tree (`Expr.prepare_all`).
-/

namespace XPath

variable {P : Atomic → Prop}

/-! ## Contexts -/

namespace Context.All

variable {c : Context}

theorem empty : Context.empty.All P where
  item := Option.forall_mem_none _
  sequence := Option.forall_mem_none _
  scopes := List.forall_mem_singleton.2 (List.forall_mem_nil _)

theorem lookup (hc : c.All P) (name : ExpandedName) : ∀ s ∈ c.lookup name, s.All P := by
  intro s hs
  obtain ⟨bound, hbound, hs⟩ := List.exists_of_findSome?_eq_some hs
  obtain ⟨before, after, rfl, -⟩ := List.lookup_eq_some_iff.1 hs
  exact hc.scopes _ hbound (name, s) List.mem_append_cons_self

theorem withFocus (hc : c.All P) (position : Nat) {v : Value} {s : Shared} (hv : v.All P)
    (hs : s.All P) : (c.withFocus position v s).All P where
  item := Option.forall_mem_some hv
  sequence := Option.forall_mem_some hs
  scopes := List.forall_mem_cons.2 ⟨List.forall_mem_nil _, hc.scopes⟩

theorem focusedOn (hc : c.All P) {v : Value} (hv : v.All P) : (c.focusedOn v).All P :=
  hc.withFocus 1 hv (.listed (List.forall_mem_singleton.2 hv))

end Context.All

/-- In a context that has the property, the meaning gives replies that have it. -/
def Meaning.Upholds (P : Atomic → Prop) (m : Meaning) : Prop :=
  ∀ ⦃c : Context⦄, c.All P → ∀ access, Reply.All P (m c access)

/-! ## Steps along an axis -/

namespace Axis

variable {access : Access} {keep : Node → Bool}

theorem query_all {q : Query} {k : q.Answer → Producer} (hk : ∀ a, (k a).All P) :
    (query access q k).All P := by
  cases access with
  | live => exact .ask hk
  | detached => exact .fail _

theorem emitAll_all (nodes : List Node) {rest : Producer} (h : rest.All P) :
    (emitAll keep nodes rest).All P := by
  unfold emitAll
  induction nodes with
  | nil => exact h
  | cons n nodes ih =>
    rw [List.foldr_cons]
    split
    · exact .emit (.node n) ih
    · exact ih

theorem below_all (fuel : Nat) (n : Node) {rest : Unit → Producer} (h : (rest ()).All P) :
    (below access keep fuel n rest).All P := by
  induction fuel generalizing n rest with
  | zero => exact h
  | succ fuel ih =>
    rw [below]
    split
    · refine query_all fun children => ?_
      induction children with
      | nil => exact h
      | cons c children ihc =>
        rw [List.foldr_cons]
        split
        · exact .emit (.node c) (ih c ihc)
        · exact ih c ihc
    · exact h

theorem above_all (fuel : Nat) (n : Node) : (above access keep fuel n).All P := by
  induction fuel generalizing n with
  | zero => exact .done
  | succ fuel ih =>
    rw [above]
    refine query_all fun p => ?_
    cases p with
    | none => exact .done
    | some p =>
      dsimp only
      split
      · exact .emit (.node p) (ih p)
      · exact ih p

theorem siblings_all (following : Bool) (n : Node) : (siblings access keep following n).All P := by
  unfold siblings
  split
  · exact .done
  refine query_all fun p => ?_
  split
  · exact .done
  refine query_all fun children => ?_
  split
  · exact .fail _
  · exact emitAll_all _ .done

theorem walk_all (axis : Axis) (access : Access) (test : NodeTest) (n : Node) :
    (axis.walk access test n).All P := by
  cases axis with
  | self => exact emitAll_all _ .done
  | child =>
    dsimp only [walk]
    split
    · exact query_all fun children => emitAll_all _ .done
    · exact .done
  | «attribute» =>
    dsimp only [walk]
    split
    · exact query_all fun attributes => emitAll_all _ .done
    · exact .done
  | parent => exact query_all fun p => emitAll_all _ .done
  | descendant => exact below_all _ n .done
  | descendantOrSelf => exact emitAll_all _ (below_all _ n .done)
  | ancestor => exact above_all _ n
  | ancestorOrSelf => exact emitAll_all _ (above_all _ n)
  | followingSibling => exact siblings_all true n
  | precedingSibling => exact siblings_all false n

end Axis

namespace Meaning

variable {m left right : Meaning} {ms : List Meaning} {operands : List Operand} {c : Context}
  {p q : Producer}

/-! ## Sequences and logic -/

theorem sequence_upholds (h : ∀ m ∈ ms, m.Upholds P) : (sequence ms).Upholds P :=
  fun _ hc access => .ok (.concat (List.forall_mem_map.2 fun m hm => .deferred (h m hm hc access)))

theorem firstDeciding_all (hP : Atomic.Kept P) (deciding : Bool) (h : ∀ m ∈ ms, m.Upholds P)
    (hc : c.All P) (access : Access) : (firstDeciding deciding c access ms).All P := by
  induction ms with
  | nil => exact .atomic (hP.boolean !deciding)
  | cons m ms ih =>
    obtain ⟨hm, hms⟩ := List.forall_mem_cons.1 h
    refine .truth (.deferred (hm hc access)) fun b => ?_
    split
    · exact .atomic (hP.boolean deciding)
    · exact ih hms

/-! ## Atomized operands -/

theorem soleOperand_all (operator : String) {vs : List Value} (h : ∀ v ∈ vs, v.All P) :
    (soleOperand operator vs).All fun x => ∀ a ∈ x, P a := by
  unfold soleOperand
  split
  · exact .ok (Option.forall_mem_none P)
  · exact .ok (Option.forall_mem_some (List.forall_mem_singleton.1 h).of_atomic)
  · exact .error
  · exact .error

/-- An operand is atomized before anything else is done with it. -/
theorem Upholds.operand (hP : Atomic.Kept P) (hm : m.Upholds P) (hc : c.All P) (access : Access)
    (operator : String) {next : Option Atomic → Reply}
    (hk : ∀ x : Option Atomic, (∀ a ∈ x, P a) → Reply.All P (next x)) :
    Reply.All P (do
      let items ← m c access
      return withAll (Producer.atomize access items) fun items => do
        next (← soleOperand operator items)) := by
  refine (hm hc access).bind fun p hp => .ok (withAll_all (.atomize hP access hp) fun vs hvs => ?_)
  exact (soleOperand_all operator hvs).bind hk

theorem signed_upholds (hP : Atomic.Kept P) (sign : Atomic.Sign) (hm : m.Upholds P) :
    (signed sign m).Upholds P := by
  intro c hc access
  refine hm.operand hP hc access "unary" fun x hx => ?_
  cases x with
  | none => exact .ok .done
  | some a => exact (hP.applySign sign (hx a rfl)).bind fun b hb => .ok (.atomic hb)

theorem arithmetic_upholds (hP : Atomic.Kept P) (op : Atomic.Operator) (hl : left.Upholds P)
    (hr : right.Upholds P) : (arithmetic op left right).Upholds P := by
  intro c hc access
  refine hl.operand hP hc access op.label fun x _ => ?_
  cases x with
  | none => exact .ok .done
  | some a =>
    refine .bind .true fun a _ => hr.operand hP hc access op.label fun y _ => ?_
    cases y with
    | none => exact .ok .done
    | some b =>
      refine .bind .true fun b _ => ?_
      exact (hP.arithmetic op a b).bind fun r hr => .ok (.atomic hr)

theorem comparison_upholds (hP : Atomic.Kept P) (op : Atomic.Relation) (hl : left.Upholds P)
    (hr : right.Upholds P) : (comparison op left right).Upholds P := by
  intro c hc access
  refine (hl hc access).bind fun p hp => .ok (withAll_all (.atomize hP access hp) fun _ _ => ?_)
  refine (hr hc access).bind fun q hq => .ok (withAll_all (.atomize hP access hq) fun _ _ => ?_)
  exact .bind .true fun related _ => .ok (.atomic (hP.boolean related))

/-! ## Filters -/

theorem verdict_all (hp : p.All P) {next : Verdict → Producer} (hk : ∀ verdict, (next verdict).All P) :
    (Verdict.read p next).All P := by
  refine .gather hp (List.forall_mem_nil _) (fun _ kept v hkept hv => ?_) fun kept _ => ?_
  · rw [Verdict.step]
    split
    · exact .more (List.forall_mem_singleton.2 hv)
    · exact .enough (List.forall_mem_cons.2 ⟨hv, hkept⟩)
  · split
    · exact hk _
    · exact .fail _

theorem atPosition_all (hp : p.All P) (place : Option Int) : (atPosition p place).All P := by
  unfold atPosition
  split
  · refine .gather hp (List.forall_mem_nil _) (fun _ _ v _ hv => ?_) fun _ hkept => .ofList hkept
    split
    · exact .enough (List.forall_mem_singleton.2 hv)
    · exact .more (List.forall_mem_nil _)
  · exact .done

theorem filterConstant_all (hp : p.All P) (hq : q.All P) : (filterConstant p q).All P := by
  refine verdict_all hq fun verdict => ?_
  rcases verdict with place | _ | _
  · exact atPosition_all hp place
  · exact .done
  · exact hp

theorem filterEach_all (hp : p.All P) (hm : m.Upholds P) (hc : c.All P) (access : Access) :
    (filterEach p m c access).All P := by
  refine .share hp fun s hs => .forEach (.reader hs) (fun i v hv => ?_) fun _ => .done
  refine verdict_all (.ofExcept (hm (hc.withFocus (i + 1) hv hs) access)) fun verdict => ?_
  split
  · exact .singleton hv
  · exact .done

theorem filter_upholds {selector predicate : Operand} (hs : selector.meaning.Upholds P)
    (hp : predicate.meaning.Upholds P) : (filter selector predicate).Upholds P := by
  intro c hc access
  refine (hs hc access).bind fun p hsel => ?_
  split
  · exact (hp hc access).bind fun q hq => .ok (filterConstant_all hsel hq)
  · exact .ok (filterEach_all hsel hp hc access)

/-! ## Paths -/

theorem collect_all {results items : List Value} (hr : ∀ v ∈ results, v.All P)
    (hi : ∀ v ∈ items, v.All P) : ∀ v ∈ collect results items, v.All P := by
  unfold collect
  induction items generalizing results with
  | nil => exact hr
  | cons v items ih =>
    obtain ⟨hv, hi⟩ := List.forall_mem_cons.1 hi
    rw [List.foldl_cons]
    refine ih ?_ hi
    split
    · split
      · exact hr
      · exact List.forall_mem_cons.2 ⟨hv, hr⟩
    · exact List.forall_mem_cons.2 ⟨hv, hr⟩

theorem fromOrigins_all {step : Operand} (hstep : step.meaning.Upholds P) (access : Access)
    {results : List Value} {contexts : List (Except Error Context)} {next : List Value → Producer}
    (hr : ∀ v ∈ results, v.All P) (hc : ∀ c ∈ contexts, Except.All (Context.All P) c)
    (hk : ∀ vs : List Value, (∀ v ∈ vs, v.All P) → (next vs).All P) :
    (fromOrigins step access results contexts next).All P := by
  induction contexts generalizing results with
  | nil => exact hk _ (List.forall_mem_reverse hr)
  | cons context rest ih =>
    obtain ⟨hcontext, hrest⟩ := List.forall_mem_cons.1 hc
    cases context with
    | error e => exact .fail e
    | ok c =>
      refine .drain (.deferred (hstep (hcontext c rfl) access)) fun vs hvs => ih ?_ hrest
      refine collect_all hr ?_
      split
      · exact List.forall_mem_reverse hvs
      · exact hvs

theorem origins_all (hc : c.All P) {vs : List Value} (h : ∀ v ∈ vs, v.All P) :
    ∀ o ∈ origins c vs, Except.All (Context.All P) o := by
  refine List.forall_mem_map.2 fun v hv => ?_
  split
  · exact .ok (hc.focusedOn (h v hv))
  · exact .error

theorem arrange_all (step : Traits) (access : Access) (count : Nat) (peers : Bool) {vs : List Value}
    {next : List Value → Producer} (h : ∀ v ∈ vs, v.All P)
    (hk : ∀ vs : List Value, (∀ v ∈ vs, v.All P) → (next vs).All P) :
    (arrange step access count peers vs next).All P := by
  rw [arrange]
  split
  · split
    · exact .fail _
    split
    · exact .perform access _ fun sorted => hk _ (Value.all_nodes sorted)
    · exact hk vs h
  · exact hk vs h

theorem steps_all (hc : c.All P) (access : Access) (peers : Bool)
    (ho : ∀ o ∈ operands, o.meaning.Upholds P) {vs : List Value} {contexts : List (Except Error Context)}
    (h : ∀ v ∈ vs, v.All P) (hcs : ∀ c ∈ contexts, Except.All (Context.All P) c) :
    (steps c access peers operands vs contexts).All P := by
  induction operands generalizing peers vs contexts with
  | nil => exact .ofList h
  | cons step rest ih =>
    obtain ⟨hstep, hrest⟩ := List.forall_mem_cons.1 ho
    rw [steps]
    refine fromOrigins_all hstep access (List.forall_mem_nil _) hcs fun ws hws => ?_
    exact arrange_all step.traits access _ peers hws fun xs hxs => ih _ hrest hxs (origins_all hc hxs)

theorem path_upholds (ho : ∀ o ∈ operands, o.meaning.Upholds P) : (path operands).Upholds P :=
  fun _ hc access => .ok (steps_all hc access true ho (List.forall_mem_nil _)
    (List.forall_mem_singleton.2 (.ok hc)))

/-! ## Constructors and calls -/

theorem mapM_upholds (h : ∀ m ∈ ms, m.Upholds P) (hc : c.All P) (access : Access) :
    Except.All (fun ps => ∀ p ∈ ps, p.All P) (ms.mapM fun m => m c access) :=
  .mapM fun m hm => h m hm hc access

theorem squareArray_upholds (h : ∀ m ∈ ms, m.Upholds P) : (squareArray ms).Upholds P :=
  fun _ hc access => (mapM_upholds h hc access).bind fun _ hps =>
    .ok (.shareAll hps fun _ hss => .singleton (.array hss))

theorem curlyArray_upholds (h : ∀ m ∈ ms, m.Upholds P) : (curlyArray ms).Upholds P := by
  intro c hc access
  cases ms with
  | nil => exact .ok (.singleton (.array (List.forall_mem_nil _)))
  | cons m ms =>
    refine (h m List.mem_cons_self hc access).bind fun p hp => .ok (.drain hp fun vs hvs => ?_)
    exact .singleton (.array (List.forall_mem_map.2 fun v hv => .listed (List.forall_mem_singleton.2 (hvs v hv))))

theorem keyOf_all (hP : Atomic.Kept P) (access : Access) (hp : p.All P) : (keyOf access p).All P := by
  refine withAll_all (.atomize hP access hp) fun vs hvs => ?_
  split
  · exact .ok (.singleton (List.forall_mem_singleton.1 hvs))
  · exact .error

theorem entries_all (h : ∀ m ∈ ms, m.Upholds P) (hc : c.All P) (access : Access) :
    (entries c access ms).All fun es => ∀ e ∈ es, e.1.All P ∧ e.2.All P := by
  induction ms using entries.induct with
  | case1 => exact .ok (List.forall_mem_nil _)
  | case2 m => exact .error
  | case3 key value rest ih =>
    obtain ⟨hkey, h⟩ := List.forall_mem_cons.1 h
    obtain ⟨hvalue, hrest⟩ := List.forall_mem_cons.1 h
    rw [entries]
    refine (hkey hc access).bind fun k hk => (hvalue hc access).bind fun v hv => ?_
    exact (ih hrest).bind fun es hes => .ok (List.forall_mem_cons.2 ⟨⟨hk, hv⟩, hes⟩)

theorem mapOf_all {es : Entries} (hk : ∀ e ∈ es, P e.1) (hs : ∀ e ∈ es, e.2.All P) :
    (Value.mapOf es).All (Value.All P) := .bind .true fun _ _ => .ok (.map hk hs)

theorem map_upholds (hP : Atomic.Kept P) (h : ∀ m ∈ ms, m.Upholds P) : (map ms).Upholds P := by
  intro c hc access
  refine (entries_all h hc access).bind fun es hes => ?_
  refine .ok (.shareAll (List.forall_mem_map.2 fun e he => (hes e he).2) fun ss hss => ?_)
  refine withAll_all (.concat (List.forall_mem_map.2 fun e he => keyOf_all hP access (hes e he).1)) ?_
  intro keys hkeys
  refine (mapOf_all (fun e he => ?_) fun e he => ?_).bind fun v hv => .ok (.singleton hv)
  · exact Value.all_atomics hkeys e.1 (List.of_mem_zip he).1
  · exact hss e.2 (List.of_mem_zip he).2

theorem calledFunction_all (slots : Nat) {vs : List Value} (h : ∀ v ∈ vs, v.All P) :
    (calledFunction slots vs).All (Function.All P) := by
  unfold calledFunction
  split
  · refine (List.forall_mem_singleton.1 h).callable.bind fun f hf => ?_
    split
    · exact .ok hf
    · exact .error
  · exact .error

theorem fillSlots_all (slots : List Bool) {ss : List Shared} (h : ∀ s ∈ ss, s.All P) :
    ∀ s, some s ∈ fillSlots slots ss → s.All P := by
  induction slots generalizing ss with
  | nil => exact fun s => List.not_mem_nil.elim
  | cons supplied slots ih =>
    intro t ht
    rcases supplied with _ | _ <;> rcases ss with _ | ⟨s, ss⟩
    case true.cons =>
      obtain ⟨hs, hss⟩ := List.forall_mem_cons.1 h
      rcases List.mem_cons.1 ht with heq | ht
      · cases heq
        exact hs
      · exact ih hss t ht
    all_goals exact ih h t ((List.mem_cons.1 ht).resolve_left nofun)

theorem call_upholds (hP : Atomic.Kept P) (static? : Option StaticContext) (slots : List Bool)
    (h : ∀ m ∈ ms, m.Upholds P) : (call static? slots ms).Upholds P := by
  intro c hc access
  cases static? with
  | none => exact .error
  | some static =>
    -- what is called, once it is known
    have called {p : Producer} (hp : p.All P) : Producer.All P (withAll p fun items => do
        let f ← calledFunction slots.length items
        let arguments ← (ms.drop 1).mapM fun m => m c access
        if slots.all (fun supplied => supplied) then
          f.invoke ⟨c, access, static.namespaces⟩ arguments
        else
          return Producer.shareAll arguments fun bound =>
            .singleton (.function (.bound f (fillSlots slots bound)))) := by
      refine withAll_all hp fun vs hvs => (calledFunction_all slots.length hvs).bind fun f hf => ?_
      refine (mapM_upholds (fun m hm => h m (List.mem_of_mem_drop hm)) hc access).bind fun ps hps => ?_
      split
      · exact Function.invoke_all hP hc hf hps
      · refine .ok (.shareAll hps fun ss hss => .singleton (.function ?_))
        exact .bound hf (fillSlots_all slots hss)
    cases ms with
    | nil => exact .ok (called .done)
    | cons m ms => exact (h m List.mem_cons_self hc access).bind fun p hp => .ok (called hp)

end Meaning

/-! ## Trees -/

/-- All functions that names refer to have the property. -/
def StaticContext.All (P : Atomic → Prop) (static : StaticContext) : Prop :=
  ∀ entry ∈ static.functions.entries, entry.2.2.All P

structure Notes.All (P : Atomic → Prop) (notes : Notes) : Prop where
  static : ∀ static ∈ notes.static?, static.All P
  cached : ∀ items ∈ notes.cached?, ∀ v ∈ items, v.All P

theorem Notes.All.blank : Notes.blank.All P := ⟨Option.forall_mem_none _, Option.forall_mem_none _⟩

/-- The literals have the property, and so has what is noted at the nodes. -/
inductive Expr.All (P : Atomic → Prop) : Expr → Prop
  | leaf {op notes} : (∀ v, op = .literal v → v.All P) → notes.All P → Expr.All P (.leaf op notes)
  | signed {sign notes e} : notes.All P → Expr.All P e → Expr.All P (.signed sign notes e)
  | binary {op notes l r} : notes.All P → Expr.All P l → Expr.All P r → Expr.All P (.binary op notes l r)
  | nary {op notes es} : notes.All P → (∀ e ∈ es, Expr.All P e) → Expr.All P (.nary op notes es)

theorem Notes.All.recall {notes : Notes} (h : notes.All P) {m : Meaning} (hm : m.Upholds P) :
    Meaning.Upholds P (notes.recall m) := by
  unfold Notes.recall
  split
  · next items hitems => exact fun _ _ _ => .ok (.ofList (h.cached items hitems))
  · exact hm

theorem Leaf.meaning_upholds {op : Leaf} {static? : Option StaticContext}
    (h : ∀ v, op = .literal v → v.All P) (hs : ∀ static ∈ static?, static.All P) :
    Meaning.Upholds P (op.meaning static?) := by
  intro c hc access
  cases op with
  | literal v => exact .ok (.singleton (h v rfl))
  | contextItem =>
    dsimp only [Leaf.meaning]
    split
    · next v hv => exact .ok (.singleton (hc.item v hv))
    · exact .error
  | variableRef name =>
    dsimp only [Leaf.meaning]
    split
    · next s hs => exact .ok (.reader (hc.lookup name s hs))
    · exact .error
  | step axis test =>
    dsimp only [Leaf.meaning]
    split
    · exact .ok (axis.walk_all access test _)
    · exact .error
    · exact .error
  | functionRef name arity =>
    cases static? with
    | none => exact .error
    | some static =>
      dsimp only [Leaf.meaning]
      split
      · next f hf =>
        obtain ⟨entry, hentry, rfl⟩ := Option.map_eq_some_iff.1 hf
        exact .ok (.singleton (.function (hs static rfl entry (List.mem_of_find?_eq_some hentry))))
      · exact .error

namespace Expr

variable {e : Expr}

mutual

theorem evaluate_all (hP : Atomic.Kept P) : ∀ {e : Expr}, e.All P → Meaning.Upholds P e.evaluate
  | .leaf op notes, .leaf hop hnotes => by
    rw [evaluate]
    exact hnotes.recall (Leaf.meaning_upholds hop hnotes.static)
  | .signed sign notes e, .signed hnotes he => by
    rw [evaluate]
    exact hnotes.recall (Meaning.signed_upholds hP sign (evaluate_all hP he))
  | .binary op notes l r, .binary hnotes hl hr => by
    rw [evaluate]
    have hl := evaluate_all hP hl
    have hr := evaluate_all hP hr
    apply hnotes.recall
    cases op with
    | arithmetic op => exact Meaning.arithmetic_upholds hP op hl hr
    | comparison op => exact Meaning.comparison_upholds hP op hl hr
    | filter => exact Meaning.filter_upholds hl hr
  | .nary op notes es, .nary hnotes hes => by
    rw [evaluate]
    have ho := operandsOf_all hP hes
    have hm : ∀ m ∈ (operandsOf es).map (·.meaning), m.Upholds P := List.forall_mem_map.2 ho
    apply hnotes.recall
    cases op with
    | sequence => exact Meaning.sequence_upholds hm
    | or => exact fun _ hc access => .ok (Meaning.firstDeciding_all hP true hm hc access)
    | and => exact fun _ hc access => .ok (Meaning.firstDeciding_all hP false hm hc access)
    | path => exact Meaning.path_upholds ho
    | squareArray => exact Meaning.squareArray_upholds hm
    | curlyArray => exact Meaning.curlyArray_upholds hm
    | map => exact Meaning.map_upholds hP hm
    | call slots => exact Meaning.call_upholds hP notes.static? slots hm

theorem operandsOf_all (hP : Atomic.Kept P) : ∀ {es : List Expr}, (∀ e ∈ es, e.All P) →
    ∀ o ∈ operandsOf es, o.meaning.Upholds P
  | [], _ => by
    rw [operandsOf]
    exact List.forall_mem_nil _
  | e :: es, h => by
    rw [operandsOf]
    exact List.forall_mem_cons.2 ⟨evaluate_all hP (h e List.mem_cons_self),
      operandsOf_all hP fun e he => h e (List.mem_cons_of_mem _ he)⟩

end

/-! ## Preparation -/

theorem All.notes (h : e.All P) : e.notes.All P := by
  cases h with
  | leaf _ hn | signed hn | binary hn | nary hn => exact hn

theorem All.withNotes (h : e.All P) {notes : Notes} (hn : notes.All P) : (e.withNotes notes).All P := by
  cases h with
  | leaf hop _ => exact .leaf hop hn
  | signed _ he => exact .signed hn he
  | binary _ hl hr => exact .binary hn hl hr
  | nary _ hes => exact .nary hn hes

variable {static : StaticContext} {fuel : Nat} {s : Session}

theorem prepareNode_all (hP : Atomic.Kept P) (hstatic : static.All P) (he : e.All P) (hs : s.All P) :
    (prepareNode static fuel e s).1.All P ∧ (prepareNode static fuel e s).2.All P := by
  have hnotes : Notes.All P { e.notes with static? := e.notes.static?.or (some static) } := by
    refine ⟨fun static' h => ?_, he.notes.cached⟩
    rcases Option.or_eq_some_iff.1 h with h | ⟨-, h⟩
    · exact he.notes.static static' h
    · cases h
      exact hstatic
  have hnoted := he.withNotes hnotes
  unfold prepareNode
  dsimp only
  split
  · split
    · next p hp =>
      have hcollect := Producer.collect_all hP fuel (h := .absent) (List.forall_mem_nil _)
        (evaluate_all hP hnoted .empty .detached p hp) hs
      generalize p.collect .absent fuel [] s = result at hcollect
      obtain ⟨items | topic | e | _, s⟩ := result
      · refine ⟨hnoted.withNotes ⟨hnotes.static, ?_⟩, hcollect.2⟩
        rintro _ ⟨⟩
        exact hcollect.1 items rfl
      · exact ⟨hnoted, hs⟩
      · exact ⟨hnoted, hcollect.2⟩
      · exact ⟨hnoted, hs⟩
    · exact ⟨hnoted, hs⟩
  · exact ⟨hnoted, hs⟩

mutual

/-- Preparation notes only values with the property. -/
theorem prepare_all (hP : Atomic.Kept P) (hstatic : static.All P) : ∀ {e : Expr} {s : Session},
    e.All P → s.All P → (prepare static fuel e s).1.All P ∧ (prepare static fuel e s).2.All P
  | .leaf op notes, s, he, hs => by
    rw [prepare]
    exact prepareNode_all hP hstatic he hs
  | .signed sign notes e, s, .signed hn he, hs => by
    rw [prepare]
    obtain ⟨he, hs⟩ := prepare_all hP hstatic he hs
    exact prepareNode_all hP hstatic (.signed hn he) hs
  | .binary op notes l r, s, .binary hn hl hr, hs => by
    rw [prepare]
    obtain ⟨hl, hs⟩ := prepare_all hP hstatic hl hs
    obtain ⟨hr, hs⟩ := prepare_all hP hstatic hr hs
    exact prepareNode_all hP hstatic (.binary hn hl hr) hs
  | .nary op notes es, s, .nary hn hes, hs => by
    rw [prepare]
    obtain ⟨hes, hs⟩ := prepareAll_all hP hstatic hes hs
    exact prepareNode_all hP hstatic (.nary hn hes) hs

theorem prepareAll_all (hP : Atomic.Kept P) (hstatic : static.All P) : ∀ {es : List Expr} {s : Session},
    (∀ e ∈ es, e.All P) → s.All P →
    (∀ e ∈ (prepareAll static fuel es s).1, e.All P) ∧ (prepareAll static fuel es s).2.All P
  | [], s, _, hs => by
    rw [prepareAll]
    exact ⟨List.forall_mem_nil _, hs⟩
  | e :: es, s, hes, hs => by
    rw [prepareAll]
    obtain ⟨he, hes⟩ := List.forall_mem_cons.1 hes
    obtain ⟨he, hs⟩ := prepare_all hP hstatic he hs
    obtain ⟨hes, hs⟩ := prepareAll_all hP hstatic hes hs
    exact ⟨List.forall_mem_cons.2 ⟨he, hes⟩, hs⟩

end

end Expr

end XPath
