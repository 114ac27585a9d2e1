import XPath.Proofs.Lazy.Invariance

/-!
# What functions make of their arguments

A call whose arguments hold only atomic values with a property gives only such values
(`Function.invoke_all`): the built-in functions hand on what they are given, make new values by
operations that keep the property, and cast. So does the machine, which puts into the cells of a session
what it draws (`Producer.next_all`).
-/

theorem Except.All.mapM {ε α β : Type} {R : β → Prop} {f : α → Except ε β} {l : List α}
    (h : ∀ a ∈ l, Except.All R (f a)) : (l.mapM f).All fun bs => ∀ b ∈ bs, R b := by
  induction l with
  | nil => exact ok (List.forall_mem_nil _)
  | cons a l ih =>
    obtain ⟨ha, hl⟩ := List.forall_mem_cons.1 h
    rw [List.mapM_cons]
    exact ha.bind fun b hb => (ih hl).bind fun bs hbs => ok (List.forall_mem_cons.2 ⟨hb, hbs⟩)

namespace XPath

open Producer

variable {P : Atomic → Prop} {p q : Producer} {ps : List Producer} {ms : List Shared} {m : Shared}

/-! ## Reading arguments -/

section

variable {x : Option Value} {xs : List (Option Value)}

theorem joined_head (h : ∀ x ∈ xs, ∀ v ∈ x, v.All P) : ∀ v ∈ xs.head?.join, v.All P := by
  intro v hv
  rw [Option.mem_def, Option.join_eq_some_iff] at hv
  exact h _ (List.mem_of_mem_head? hv) v rfl

theorem joined_at (h : ∀ x ∈ xs, ∀ v ∈ x, v.All P) (i : Nat) : ∀ v ∈ xs[i]?.join, v.All P := by
  intro v hv
  rw [Option.mem_def, Option.join_eq_some_iff] at hv
  exact h _ (List.mem_of_getElem? hv) v rfl

theorem expectArray_all (h : ∀ v ∈ x, v.All P) : (expectArray x).All fun ms => ∀ m ∈ ms, m.All P := by
  unfold expectArray
  split
  · cases h _ rfl with
    | array hs => exact .ok hs
  · exact .error

theorem expectMap_all (h : ∀ v ∈ x, v.All P) :
    (expectMap x).All fun es => ∀ e ∈ es, P e.1 ∧ e.2.All P := by
  unfold expectMap
  split
  · cases h _ rfl with
    | map hk hs => exact .ok fun e he => ⟨hk e he, hs e he⟩
  · exact .error

theorem expectAtomic_all (h : ∀ v ∈ x, v.All P) : (expectAtomic x).All P := by
  unfold expectAtomic
  split
  · exact .ok (h _ rfl).of_atomic
  · exact .error

theorem expectFunction_all (h : ∀ v ∈ x, v.All P) : (expectFunction x).All (Function.All P) := by
  unfold expectFunction
  split
  · exact (h _ rfl).callable
  · exact .error

end

theorem withFirsts_all {next : List (Option Value) → Reply} (h : ∀ p ∈ ps, p.All P)
    (hk : ∀ xs : List (Option Value), (∀ x ∈ xs, ∀ v ∈ x, v.All P) → Reply.All P (next xs)) :
    (withFirsts ps next).All P := .firsts h fun xs hxs => .ofExcept (hk xs hxs)

theorem withAll_all {next : List Value → Reply} (h : p.All P)
    (hk : ∀ vs : List Value, (∀ v ∈ vs, v.All P) → Reply.All P (next vs)) : (withAll p next).All P :=
  .drain h fun vs hvs => .ofExcept (hk vs hvs)

/-- The first argument is an array. -/
theorem withArray_all {next : List Shared → List (Option Value) → Reply} (h : ∀ p ∈ ps, p.All P)
    (hk : ∀ ms : List Shared, (∀ m ∈ ms, m.All P) → ∀ xs : List (Option Value),
      (∀ x ∈ xs, ∀ v ∈ x, v.All P) → Reply.All P (next ms xs)) :
    (withFirsts ps fun xs => do next (← expectArray xs.head?.join) xs).All P :=
  withFirsts_all h fun xs hxs => (expectArray_all (joined_head hxs)).bind fun ms hms => hk ms hms xs hxs

/-- The first argument is a map. -/
theorem withMap_all {next : Entries → List (Option Value) → Reply} (h : ∀ p ∈ ps, p.All P)
    (hk : ∀ es : Entries, (∀ e ∈ es, P e.1 ∧ e.2.All P) → ∀ xs, Reply.All P (next es xs)) :
    (withFirsts ps fun xs => do next (← expectMap xs.head?.join) xs).All P :=
  withFirsts_all h fun xs hxs => (expectMap_all (joined_head hxs)).bind fun es hes => hk es hes xs

theorem applyAll_all {f : Function} {c : CallContext} {argss : List (List Producer)}
    {next : List Shared → Producer} (hf : f.All P) (hc : c.context.All P)
    (h : ∀ args ∈ argss, ∀ p ∈ args, p.All P)
    (hk : ∀ ss : List Shared, (∀ s ∈ ss, s.All P) → (next ss).All P) : (applyAll f c argss next).All P := by
  induction argss generalizing next with
  | nil => exact hk [] (List.forall_mem_nil _)
  | cons args argss ih =>
    obtain ⟨hargs, hrest⟩ := List.forall_mem_cons.1 h
    refine .apply hf hc hargs fun s hs => ih hrest fun ss hss => ?_
    exact hk (s :: ss) (List.forall_mem_cons.2 ⟨hs, hss⟩)

namespace CallContext

variable {c : CallContext}

theorem contextItem_all (hc : c.context.All P) (function : String) :
    (c.contextItem function).All (Value.All P) := by
  unfold contextItem
  split
  · next v hv => exact .ok (hc.item v hv)
  · exact .error

theorem contextNode_all (hc : c.context.All P) (function : String) :
    Reply.All P (c.contextNode function) :=
  (contextItem_all hc function).bind fun _ hv => .bind .true fun _ _ => .ok (.singleton hv)

end CallContext

/-! ## Single functions -/

theorem ofNodes_all (ns : List Node) : (ofList (ns.map .node)).All P := .ofList (Value.all_nodes ns)

theorem Reply.array_all (h : ∀ m ∈ ms, m.All P) : Reply.All P (Reply.array ms) :=
  .ok (.singleton (.array h))

theorem stringOf_all (hP : Atomic.Kept P) (access : Access) (h : p.All P) :
    (stringOf access p).All P := by
  refine withAll_all h fun vs _ => ?_
  split
  · exact .ok (.atomic (hP.string _))
  · exact .ok (.atomic (hP.string _))
  · exact .ok (.perform access _ fun a => .atomic (hP.string _))
  · exact .error

theorem lastPosition_all (hP : Atomic.Kept P) (h : m.All P) : (lastPosition m).All P := by
  refine .length fun n => ?_
  cases n with
  | some n => exact .atomic (hP.integer n)
  | none => exact .drain (.reader h) fun vs _ => .atomic (hP.integer _)

theorem equalSequences_all (access : Access) (h : p.All P) (h' : q.All P) :
    (equalSequences access p q).All P := by
  refine .share h fun s hs => .share h' fun t ht => .call (.equal ?_)
  exact List.forall_mem_singleton.2 (.members hs ht)

theorem NamePart.reply_all (hP : Atomic.Kept P) (part : NamePart) (h : p.All P) :
    (part.reply p).All P := by
  have report (name : Option QName) : ∀ a ∈ part.report name, P a := by
    intro a ha
    cases part with
    | whole | localPart =>
      cases ha
      exact hP.string _
    | uri =>
      cases ha
      exact hP.anyUri _
    | qualified =>
      obtain ⟨q, -, rfl⟩ := Option.map_eq_some_iff.1 ha
      exact hP.qName q
  refine withFirsts_all (List.forall_mem_singleton.2 h) fun xs _ => .bind .true fun n _ => ?_
  have hname := report (n.bind (·.name))
  split
  · next a ha => exact .ok (.atomic (hname a ha))
  · exact .ok .done

theorem rootOf_all (access : Access) (h : p.All P) : (rootOf access p).All P := by
  refine withFirsts_all (List.forall_mem_singleton.2 h) fun xs _ => .bind .true fun n _ => ?_
  cases n with
  | none => exact .ok .done
  | some n => exact .ok (.perform access _ fun chain => .singleton (.node _))

theorem selectNested_all (access : Access) (select : List (OrderKey × Node) → List Node)
    (h : p.All P) : (selectNested access p select).All P :=
  withAll_all h fun _ _ => .bind .true fun _ _ => .ok (.perform access _ fun _ => ofNodes_all _)

theorem searchFrom_all (access : Access) (lookup : IdLookup) (h : p.All P) (h' : q.All P) :
    (searchFrom access lookup p q).All P := by
  refine .first h' fun x _ => ?_
  split
  · exact .drain h fun _ _ => .perform access _ fun _ => ofNodes_all _
  · exact .done

mutual

/-- JSON texts hold strings, numbers and truth values. -/
theorem Json.items_all (hP : Atomic.Kept P) : ∀ json : Json, ∀ v ∈ json.items, v.All P
  | .null => by
    rw [Json.items]
    exact List.forall_mem_nil _
  | .boolean b => by
    rw [Json.items]
    exact List.forall_mem_singleton.2 (.atomic (hP.boolean b))
  | .number d => by
    rw [Json.items]
    exact List.forall_mem_singleton.2 (.atomic (hP.double d))
  | .string s => by
    rw [Json.items]
    exact List.forall_mem_singleton.2 (.atomic (hP.string s))
  | .array members => by
    rw [Json.items]
    exact List.forall_mem_singleton.2 (.array (Json.memberItems_all hP members))
  | .object entries => by
    rw [Json.items]
    have h := Json.entryItems_all hP entries
    exact List.forall_mem_singleton.2 (.map (fun e he => (h e he).1) fun e he => (h e he).2)

theorem Json.memberItems_all (hP : Atomic.Kept P) :
    ∀ members : List Json, ∀ m ∈ Json.memberItems members, m.All P
  | [] => by
    rw [Json.memberItems]
    exact List.forall_mem_nil _
  | member :: rest => by
    rw [Json.memberItems]
    exact List.forall_mem_cons.2 ⟨.listed (Json.items_all hP member), Json.memberItems_all hP rest⟩

theorem Json.entryItems_all (hP : Atomic.Kept P) :
    ∀ entries : List (String × Json), ∀ e ∈ Json.entryItems entries, P e.1 ∧ e.2.All P
  | [] => by
    rw [Json.entryItems]
    exact List.forall_mem_nil _
  | (key, value) :: rest => by
    rw [Json.entryItems]
    exact List.forall_mem_cons.2
      ⟨⟨hP.string key, .listed (Json.items_all hP value)⟩, Json.entryItems_all hP rest⟩

end

theorem parseJson_all (hP : Atomic.Kept P) (text : String) : Reply.All P (parseJson text) := by
  unfold parseJson
  split
  · exact .ok (.ofList (Json.items_all hP _))
  · exact .error

theorem traced_all (label : String) (h : p.All P) : (traced label p).All P :=
  .drain h fun _ hvs => .log (.ofList hvs)

theorem lookUpKey_all {es : Entries} (h : ∀ e ∈ es, e.2.All P) (key : Atomic) :
    (lookUpKey es key).All P := by
  unfold lookUpKey
  split
  · next s hs => exact .reader (Entries.get?_all h key s hs)
  · exact .done

/-! ## Arrays -/

namespace Members

theorem get_all (h : ∀ m ∈ ms, m.All P) (position : Int) : (get ms position).All (Shared.All P) := by
  refine .bind .true fun i _ => ?_
  split
  · next m hm => exact .ok (h m (List.mem_of_getElem? hm))
  · exact .error

theorem put_all (h : ∀ m ∈ ms, m.All P) (hm : m.All P) (position : Int) :
    (put ms position m).All fun ms => ∀ m ∈ ms, m.All P := by
  refine .bind .true fun i _ => .ok fun m' hm' => ?_
  rcases List.mem_or_eq_of_mem_set hm' with hmem | rfl
  · exact h m' hmem
  · exact hm

theorem insertBefore_all (h : ∀ m ∈ ms, m.All P) (hm : m.All P) (position : Int) :
    (insertBefore ms position m).All fun ms => ∀ m ∈ ms, m.All P := by
  unfold insertBefore
  dsimp only
  split
  · refine .ok (List.forall_mem_append.2 ⟨fun m' hm' => h m' (List.mem_of_mem_take hm'), ?_⟩)
    exact List.forall_mem_cons.2 ⟨hm, fun m' hm' => h m' (List.mem_of_mem_drop hm')⟩
  · exact .error

theorem remove_all (h : ∀ m ∈ ms, m.All P) (positions : List Int) :
    (remove ms positions).All fun ms => ∀ m ∈ ms, m.All P := by
  refine .bind .true fun indexes _ => .ok (List.forall_mem_map.2 fun x hx => ?_)
  exact h _ (List.fst_mem_of_mem_zipIdx (List.mem_filter.1 hx).1)

theorem subarray_all (h : ∀ m ∈ ms, m.All P) (start length : Int) :
    (subarray ms start length).All fun ms => ∀ m ∈ ms, m.All P := by
  unfold subarray
  dsimp only
  split
  · exact .error
  split
  · exact .error
  split
  · exact .ok fun m hm => h m (List.mem_of_mem_drop (List.mem_of_mem_take hm))
  · exact .error

theorem insertSorted_all {x : Keyed} (hx : x.2.All P) {keyed : List Keyed} (h : ∀ y ∈ keyed, y.2.All P)
    (failure : Option Error) : ∀ y ∈ (insertSorted x failure keyed).2, y.2.All P := by
  induction keyed with
  | nil => exact List.forall_mem_singleton.2 hx
  | cons y keyed ih =>
    obtain ⟨hy, hkeyed⟩ := List.forall_mem_cons.1 h
    rw [insertSorted]
    split
    · exact List.forall_mem_cons.2 ⟨hy, ih hkeyed⟩
    · exact List.forall_mem_cons.2 ⟨hx, h⟩
    · exact List.forall_mem_cons.2 ⟨hx, h⟩

theorem sortInto_all {sorted keyed : List Keyed} (hs : ∀ y ∈ sorted, y.2.All P)
    (h : ∀ y ∈ keyed, y.2.All P) (failure : Option Error) :
    ∀ y ∈ (sortInto failure sorted keyed).2, y.2.All P := by
  induction keyed generalizing sorted failure with
  | nil => exact hs
  | cons x keyed ih =>
    obtain ⟨hx, hkeyed⟩ := List.forall_mem_cons.1 h
    exact ih (insertSorted_all hx hs failure) hkeyed _

theorem sort_all {keyed : List Keyed} (h : ∀ y ∈ keyed, y.2.All P) :
    (sort keyed).All fun ms => ∀ m ∈ ms, m.All P := by
  have hsorted := sortInto_all (List.forall_mem_nil _) h none
  unfold sort
  split
  · exact .error
  · next sorted heq =>
    rw [heq] at hsorted
    exact .ok (List.forall_mem_map.2 (List.forall_mem_reverse hsorted))

theorem withKeys_all (hP : Atomic.Kept P) (access : Access) (h : ∀ m ∈ ms, m.All P)
    {next : List Keyed → Producer} (hk : ∀ keyed, (∀ y ∈ keyed, y.2.All P) → (next keyed).All P) :
    (withKeys access ms next).All P := by
  induction ms generalizing next with
  | nil => exact hk [] (List.forall_mem_nil _)
  | cons m ms ih =>
    obtain ⟨hm, hms⟩ := List.forall_mem_cons.1 h
    refine .drain (.atomize hP access (.reader hm)) fun items _ => ih hms fun keyed hkeyed => ?_
    exact hk _ (List.forall_mem_cons.2 ⟨hm, hkeyed⟩)

theorem truths_all (h : ∀ m ∈ ms, m.All P) {next : List Bool → Producer} (hk : ∀ bs, (next bs).All P) :
    (truths ms next).All P := by
  induction ms generalizing next with
  | nil => exact hk []
  | cons m ms ih =>
    obtain ⟨hm, hms⟩ := List.forall_mem_cons.1 h
    exact .truth (.reader hm) fun b => ih hms fun bs => hk (b :: bs)

variable {f : Function} {c : CallContext}

theorem filter_all (h : ∀ m ∈ ms, m.All P) (hf : f.All P) (hc : c.context.All P) :
    (filter ms f c).All P := by
  refine applyAll_all hf hc (List.forall_mem_map.2 fun m hm => ?_) fun ss hss =>
    truths_all hss fun verdicts => .singleton (.array (List.forall_mem_map.2 fun x hx => ?_))
  · exact List.forall_mem_singleton.2 (.reader (h m hm))
  · exact h x.1 (List.of_mem_zip (List.mem_filter.1 hx).1).1

theorem foldLeft_all (hf : f.All P) (hc : c.context.All P) (hp : p.All P) (h : ∀ m ∈ ms, m.All P) :
    (foldLeft f c p ms).All P := by
  induction ms generalizing p with
  | nil => exact hp
  | cons m ms ih =>
    obtain ⟨hm, hms⟩ := List.forall_mem_cons.1 h
    refine .apply hf hc (List.forall_mem_cons.2 ⟨hp, ?_⟩) fun s hs => ih (.reader hs) hms
    exact List.forall_mem_singleton.2 (.reader hm)

theorem foldRight_all (hf : f.All P) (hc : c.context.All P) (hp : p.All P) (h : ∀ m ∈ ms, m.All P) :
    (foldRight f c p ms).All P := by
  induction ms generalizing p with
  | nil => exact hp
  | cons m ms ih =>
    obtain ⟨hm, hms⟩ := List.forall_mem_cons.1 h
    refine .apply hf hc (List.forall_mem_cons.2 ⟨.reader hm, ?_⟩) fun s hs => ih (.reader hs) hms
    exact List.forall_mem_singleton.2 hp

end Members

/-! ## Built-in functions -/

section

variable (h : ∀ p ∈ ps, p.All P)

include h

theorem arguments_one (hl : ps.length = 1) : ∃ a, ps = [a] ∧ a.All P := by
  obtain ⟨a, rfl⟩ := List.length_eq_one_iff.1 hl
  exact ⟨a, rfl, List.forall_mem_singleton.1 h⟩

theorem arguments_two (hl : ps.length = 2) : ∃ a b, ps = [a, b] ∧ a.All P ∧ b.All P := by
  obtain ⟨a, b, rfl⟩ := List.length_eq_two.1 hl
  obtain ⟨ha, hb⟩ := List.forall_mem_cons.1 h
  exact ⟨a, b, rfl, ha, List.forall_mem_singleton.1 hb⟩

theorem arguments_three (hl : ps.length = 3) :
    ∃ a b c, ps = [a, b, c] ∧ a.All P ∧ b.All P ∧ c.All P := by
  obtain ⟨a, b, c, rfl⟩ := List.length_eq_three.1 hl
  obtain ⟨ha, hbc⟩ := List.forall_mem_cons.1 h
  obtain ⟨hb, hc⟩ := List.forall_mem_cons.1 hbc
  exact ⟨a, b, c, rfl, ha, hb, List.forall_mem_singleton.1 hc⟩

end

namespace Builtin

/-- Given as many arguments as it takes, all with the property, the function replies with values that
have it. -/
def Upholds (P : Atomic → Prop) (f : Builtin) : Prop :=
  ∀ ⦃c : CallContext⦄ ⦃ps : List Producer⦄, c.context.All P → (∀ p ∈ ps, p.All P) →
    ps.length = f.signature.arity → Reply.All P (f.run c ps)

theorem nameOf_upholds (hP : Atomic.Kept P) (part : NamePart) (implicit : Bool) :
    (nameOf part implicit).Upholds P := by
  intro c ps hc h hl
  cases implicit with
  | true =>
    obtain rfl := List.length_eq_zero_iff.1 (hl.trans (by cases part <;> rfl))
    exact (CallContext.contextNode_all hc _).bind fun p hp => .ok (part.reply_all hP hp)
  | false =>
    obtain ⟨a, rfl, ha⟩ := arguments_one h (hl.trans (by cases part <;> rfl))
    exact .ok (part.reply_all hP ha)

theorem search_upholds (lookup : IdLookup) (implicit : Bool) : (search lookup implicit).Upholds P := by
  intro c ps hc h hl
  cases implicit with
  | true =>
    obtain ⟨a, rfl, ha⟩ := arguments_one h (hl.trans (by cases lookup <;> rfl))
    exact (CallContext.contextItem_all hc _).bind fun v hv =>
      .ok (searchFrom_all c.access lookup ha (.singleton hv))
  | false =>
    obtain ⟨a, b, rfl, ha, hb⟩ := arguments_two h (hl.trans (by cases lookup <;> rfl))
    exact .ok (searchFrom_all c.access lookup ha hb)

theorem parseJson_upholds (hP : Atomic.Kept P) : parseJson.Upholds P := by
  intro c ps _ h hl
  obtain ⟨a, rfl, ha⟩ := arguments_one h hl
  refine .ok (withFirsts_all h fun xs _ => ?_)
  split
  · exact .ok .done
  · exact .bind .true fun a _ => parseJson_all hP a.text

theorem trace_upholds (labelled : Bool) : (trace labelled).Upholds P := by
  intro c ps _ h hl
  cases labelled with
  | false =>
    obtain ⟨a, rfl, ha⟩ := arguments_one h hl
    exact .ok (traced_all "" ha)
  | true =>
    obtain ⟨a, l, rfl, ha, hlabel⟩ := arguments_two h hl
    refine .ok (withFirsts_all (List.forall_mem_singleton.2 hlabel) fun xs _ => ?_)
    split
    · exact .ok (traced_all _ ha)
    · exact .error

theorem arraySubarray_upholds (withLength : Bool) : (arraySubarray withLength).Upholds P := by
  intro c ps _ h hl
  cases withLength with
  | false =>
    obtain ⟨a, s, rfl, ha, hs⟩ := arguments_two h hl
    refine .ok (withArray_all h fun ms hms xs _ => .bind .true fun start _ => ?_)
    exact (Members.subarray_all hms _ _).bind fun _ hms => Reply.array_all hms
  | true =>
    obtain ⟨a, s, l, rfl, ha, hs, hlength⟩ := arguments_three h hl
    refine .ok (withArray_all h fun ms hms xs _ => .bind .true fun start _ => .bind .true fun len _ => ?_)
    exact (Members.subarray_all hms _ _).bind fun _ hms => Reply.array_all hms

theorem arrayRemove_upholds : arrayRemove.Upholds P := by
  intro c ps _ h hl
  obtain ⟨a, positions, rfl, ha, hp⟩ := arguments_two h hl
  refine .ok (withArray_all (List.forall_mem_singleton.2 ha) fun ms hms _ _ => ?_)
  refine .ok (withAll_all hp fun items _ => .bind .true fun positions _ => ?_)
  exact (Members.remove_all hms positions).bind fun _ hms => Reply.array_all hms

theorem arrayFilter_upholds : arrayFilter.Upholds P := by
  intro c ps hc h hl
  obtain ⟨a, f, rfl, ha, hf⟩ := arguments_two h hl
  refine .ok (withArray_all (List.forall_mem_singleton.2 ha) fun ms hms _ _ => ?_)
  refine .ok (withFirsts_all (List.forall_mem_singleton.2 hf) fun xs hxs => ?_)
  exact (expectFunction_all (joined_head hxs)).bind fun f hf => .ok (Members.filter_all hms hf hc)

theorem arrayForEachPair_upholds : arrayForEachPair.Upholds P := by
  intro c ps hc h hl
  obtain ⟨a, b, f, rfl, ha, hb, hf⟩ := arguments_three h hl
  refine .ok (withArray_all h fun left hleft xs hxs => ?_)
  refine (expectArray_all (joined_at hxs 1)).bind fun right hright => ?_
  refine (expectFunction_all (joined_at hxs 2)).bind fun f hf => ?_
  refine .ok (applyAll_all hf hc (List.forall_mem_map.2 fun x hx => ?_) fun ss hss =>
    .singleton (.array hss))
  obtain ⟨hl, hr⟩ := List.of_mem_zip hx
  exact List.forall_mem_cons.2
    ⟨.reader (hleft _ hl), List.forall_mem_singleton.2 (.reader (hright _ hr))⟩

theorem cast_upholds (hP : Atomic.Kept P) (target : ItemType) : (cast target).Upholds P := by
  intro c ps _ h hl
  obtain ⟨a, rfl, ha⟩ := arguments_one h hl
  refine .ok (withFirsts_all h fun xs hxs => ?_)
  split
  · exact .ok .done
  · refine (expectAtomic_all (joined_head hxs)).bind fun a ha => ?_
    exact (hP.castTo _ a target ha).bind fun b hb => .ok (.atomic hb)

/-- Every function replies with what it is given, or with what keeps the property. -/
theorem upholds (hP : Atomic.Kept P) (f : Builtin) : f.Upholds P := by
  intro c ps hc h hl
  cases f with
  | constant b =>
    obtain rfl := List.length_eq_zero_iff.1 hl
    exact .ok (.atomic (hP.boolean b))
  | boolean =>
    obtain ⟨a, rfl, ha⟩ := arguments_one h hl
    exact .ok (.truth ha fun b => .atomic (hP.boolean b))
  | not =>
    obtain ⟨a, rfl, ha⟩ := arguments_one h hl
    exact .ok (.truth ha fun b => .atomic (hP.boolean !b))
  | count =>
    obtain ⟨a, rfl, ha⟩ := arguments_one h hl
    exact .ok (.drain ha fun vs _ => .atomic (hP.integer vs.length))
  | empty =>
    obtain ⟨a, rfl, ha⟩ := arguments_one h hl
    exact .ok (.first ha fun x _ => .atomic (hP.boolean x.isNone))
  | «exists» =>
    obtain ⟨a, rfl, ha⟩ := arguments_one h hl
    exact .ok (.first ha fun x _ => .atomic (hP.boolean x.isSome))
  | position =>
    obtain rfl := List.length_eq_zero_iff.1 hl
    exact .bind .true fun _ _ => .ok (.atomic (hP.integer _))
  | last =>
    obtain rfl := List.length_eq_zero_iff.1 hl
    dsimp only [run]
    split
    · next s hs => exact .ok (lastPosition_all hP (hc.sequence s hs))
    · exact .error
  | deepEqual =>
    obtain ⟨a, b, rfl, ha, hb⟩ := arguments_two h hl
    exact .ok (equalSequences_all c.access ha hb)
  | data implicit =>
    cases implicit with
    | true =>
      obtain rfl := List.length_eq_zero_iff.1 hl
      exact (CallContext.contextItem_all hc _).bind fun v hv => .ok (.atomize hP _ (.singleton hv))
    | false =>
      obtain ⟨a, rfl, ha⟩ := arguments_one h hl
      exact .ok (.atomize hP _ ha)
  | string implicit =>
    cases implicit with
    | true =>
      obtain rfl := List.length_eq_zero_iff.1 hl
      exact (CallContext.contextItem_all hc _).bind fun v hv => .ok (stringOf_all hP _ (.singleton hv))
    | false =>
      obtain ⟨a, rfl, ha⟩ := arguments_one h hl
      exact .ok (stringOf_all hP _ ha)
  | nameOf part implicit => exact nameOf_upholds hP part implicit hc h hl
  | root implicit =>
    cases implicit with
    | true =>
      obtain rfl := List.length_eq_zero_iff.1 hl
      exact (CallContext.contextNode_all hc _).bind fun p hp => .ok (rootOf_all _ hp)
    | false =>
      obtain ⟨a, rfl, ha⟩ := arguments_one h hl
      exact .ok (rootOf_all _ ha)
  | innermost | outermost =>
    obtain ⟨a, rfl, ha⟩ := arguments_one h hl
    exact .ok (selectNested_all _ _ ha)
  | search lookup implicit => exact search_upholds lookup implicit hc h hl
  | parseJson => exact parseJson_upholds hP hc h hl
  | trace labelled => exact trace_upholds labelled hc h hl
  | mapSize =>
    obtain ⟨m, rfl, hm⟩ := arguments_one h hl
    exact .ok (withMap_all h fun es _ _ => .ok (.atomic (hP.integer es.length)))
  | mapKeys =>
    obtain ⟨m, rfl, hm⟩ := arguments_one h hl
    refine .ok (withMap_all h fun es hes _ => .ok (.ofList (List.forall_mem_map.2 fun e he => ?_)))
    exact .atomic (hes e he).1
  | mapContains =>
    obtain ⟨m, k, rfl, hm, hk⟩ := arguments_two h hl
    exact .ok (withMap_all h fun es _ xs => .bind .true fun key _ =>
      .ok (.atomic (hP.boolean (es.contains key))))
  | mapGet =>
    obtain ⟨m, k, rfl, hm, hk⟩ := arguments_two h hl
    exact .ok (withMap_all h fun es hes xs => .bind .true fun key _ =>
      .ok (lookUpKey_all (fun e he => (hes e he).2) key))
  | arraySize =>
    obtain ⟨a, rfl, ha⟩ := arguments_one h hl
    exact .ok (withArray_all h fun ms _ _ _ => .ok (.atomic (hP.integer ms.length)))
  | arrayGet =>
    obtain ⟨a, i, rfl, ha, hi⟩ := arguments_two h hl
    refine .ok (withArray_all h fun ms hms xs _ => .bind .true fun position _ => ?_)
    exact (Members.get_all hms position).bind fun m hm => .ok (.reader hm)
  | arrayPut =>
    obtain ⟨a, i, m, rfl, ha, hi, hm⟩ := arguments_three h hl
    refine .ok (.share hm fun s hs => withArray_all ?_ fun ms hms xs _ => .bind .true fun position _ => ?_)
    · exact List.forall_mem_cons.2 ⟨ha, List.forall_mem_singleton.2 hi⟩
    · exact (Members.put_all hms hs position).bind fun _ hms => Reply.array_all hms
  | arrayAppend =>
    obtain ⟨a, m, rfl, ha, hm⟩ := arguments_two h hl
    refine .ok (.share hm fun s hs => withArray_all (List.forall_mem_singleton.2 ha) fun ms hms _ _ => ?_)
    exact Reply.array_all (List.forall_mem_append.2 ⟨hms, List.forall_mem_singleton.2 hs⟩)
  | arraySubarray withLength => exact arraySubarray_upholds withLength hc h hl
  | arrayRemove => exact arrayRemove_upholds hc h hl
  | arrayInsertBefore =>
    obtain ⟨a, i, m, rfl, ha, hi, hm⟩ := arguments_three h hl
    refine .ok (.share hm fun s hs => withArray_all ?_ fun ms hms xs _ => .bind .true fun position _ => ?_)
    · exact List.forall_mem_cons.2 ⟨ha, List.forall_mem_singleton.2 hi⟩
    · exact (Members.insertBefore_all hms hs position).bind fun _ hms => Reply.array_all hms
  | arrayHead =>
    obtain ⟨a, rfl, ha⟩ := arguments_one h hl
    exact .ok (withArray_all h fun ms hms _ _ => (Members.get_all hms 1).bind fun m hm =>
      .ok (.reader hm))
  | arrayTail =>
    obtain ⟨a, rfl, ha⟩ := arguments_one h hl
    exact .ok (withArray_all h fun ms hms _ _ => (Members.remove_all hms [1]).bind fun _ hms =>
      Reply.array_all hms)
  | arrayReverse =>
    obtain ⟨a, rfl, ha⟩ := arguments_one h hl
    exact .ok (withArray_all h fun ms hms _ _ => Reply.array_all
      (List.forall_mem_reverse hms))
  | arrayJoin =>
    obtain ⟨a, rfl, ha⟩ := arguments_one h hl
    refine .ok (withAll_all ha fun vs hvs => ?_)
    refine (Except.All.mapM fun v hv => expectArray_all (P := P) ?_).bind fun arrays harrays =>
      Reply.array_all fun m hm => ?_
    · rintro _ ⟨⟩
      exact hvs v hv
    · obtain ⟨ms, hms, hm⟩ := List.mem_flatten.1 hm
      exact harrays ms hms m hm
  | arrayForEach =>
    obtain ⟨a, f, rfl, ha, hf⟩ := arguments_two h hl
    refine .ok (withArray_all h fun ms hms xs hxs => ?_)
    refine (expectFunction_all (joined_at hxs 1)).bind fun f hf => ?_
    refine .ok (applyAll_all hf hc (List.forall_mem_map.2 fun m hm => ?_) fun ss hss =>
      .singleton (.array hss))
    exact List.forall_mem_singleton.2 (.reader (hms m hm))
  | arrayFilter => exact arrayFilter_upholds hc h hl
  | arrayFoldLeft =>
    obtain ⟨a, zero, f, rfl, ha, hz, hf⟩ := arguments_three h hl
    refine .ok (withFirsts_all (List.forall_mem_cons.2 ⟨ha, List.forall_mem_singleton.2 hf⟩) ?_)
    intro xs hxs
    refine (expectFunction_all (joined_at hxs 1)).bind fun f hf => ?_
    refine (expectArray_all (joined_head hxs)).bind fun ms hms => ?_
    exact .ok (Members.foldLeft_all hf hc hz hms)
  | arrayFoldRight =>
    obtain ⟨a, zero, f, rfl, ha, hz, hf⟩ := arguments_three h hl
    refine .ok (withFirsts_all (List.forall_mem_cons.2 ⟨ha, List.forall_mem_singleton.2 hf⟩) ?_)
    intro xs hxs
    refine (expectFunction_all (joined_at hxs 1)).bind fun f hf => ?_
    refine (expectArray_all (joined_head hxs)).bind fun ms hms => ?_
    exact .ok (Members.foldRight_all hf hc hz (List.forall_mem_reverse hms))
  | arrayForEachPair => exact arrayForEachPair_upholds hc h hl
  | arraySort =>
    obtain ⟨a, rfl, ha⟩ := arguments_one h hl
    refine .ok (withArray_all h fun ms hms _ _ => ?_)
    refine .ok (Members.withKeys_all hP _ hms fun keyed hkeyed => .ofExcept ?_)
    exact (Members.sort_all hkeyed).map fun ms hms => .singleton (.array hms)
  | arrayFlatten =>
    obtain ⟨a, rfl, ha⟩ := arguments_one h hl
    exact .ok (.flatten ha)
  | cast target => exact cast_upholds hP target hc h hl

end Builtin

/-! ## Host functions and calls -/

theorem Behaviour.run_all (hP : Atomic.Kept P) (b : Behaviour) {c : CallContext}
    (hc : c.context.All P) (h : ∀ p ∈ ps, p.All P) : Reply.All P (b.run c ps) := by
  cases b with
  | concatenate => exact .ok (.concat h)
  | reverse => exact .ok (.concat (List.forall_mem_reverse h))
  | ignore => exact .ok .done
  | typeNames => exact .ok (.mapItems (.concat h) fun _ _ => .ok (.atomic (hP.string _)))
  | contextItem =>
    refine .ok ?_
    split
    · next v hv => exact .singleton (hc.item v hv)
    · exact .done
  | raise e => exact .error

namespace Function

theorem fill_all {slots : List (Option Shared)} (hs : ∀ s, some s ∈ slots → s.All P)
    (h : ∀ p ∈ ps, p.All P) : (fill slots ps).All fun qs => ∀ q ∈ qs, q.All P := by
  induction slots generalizing ps with
  | nil => exact .ok (List.forall_mem_nil _)
  | cons slot slots ih =>
    have hslots : ∀ s, some s ∈ slots → s.All P := fun s hmem => hs s (List.mem_cons_of_mem _ hmem)
    cases slot with
    | some s =>
      refine (ih hslots h).bind fun qs hqs => .ok (List.forall_mem_cons.2 ⟨.reader ?_, hqs⟩)
      exact hs s List.mem_cons_self
    | none =>
      cases ps with
      | nil => exact .error
      | cons p ps =>
        obtain ⟨hp, hps⟩ := List.forall_mem_cons.1 h
        exact (ih hslots hps).bind fun qs hqs => .ok (List.forall_mem_cons.2 ⟨hp, hqs⟩)

theorem soleArgument_all {next : Atomic → Reply} (h : ∀ p ∈ ps, p.All P)
    (hk : ∀ a, Reply.All P (next a)) : Reply.All P (invoke.withAll' ps next) := by
  unfold invoke.withAll'
  split
  · exact .ok (withAll_all (List.forall_mem_singleton.1 h) fun vs _ => .bind .true fun a _ => hk a)
  · exact .error

/-- The arguments are converted before anything is done with them. -/
theorem checked_all (hP : Atomic.Kept P) {f : Function} {c : CallContext} {body : List Producer → Reply}
    (h : ∀ p ∈ ps, p.All P)
    (hbody : ∀ qs : List Producer, (∀ q ∈ qs, q.All P) → qs.length = f.arity → Reply.All P (body qs)) :
    Reply.All P (if ps.length ≠ f.arity then .error (f.wrongArity ps.length)
      else do body (← convertArguments c.access f.label f.signature.parameters ps)) := by
  split
  · exact .error
  · exact (convertArguments_all hP _ _ _ h).bind fun qs hqs => hbody qs hqs.2 hqs.1

/-- A call gives only values with the property. -/
theorem invoke_all (hP : Atomic.Kept P) {c : CallContext} (hc : c.context.All P) {f : Function}
    {ps : List Producer} : f.All P → (∀ p ∈ ps, p.All P) → Reply.All P (f.invoke c ps)
  | .builtin b, h => by
    rw [invoke]
    exact checked_all hP h fun qs hqs hl => b.upholds hP hc hqs hl
  | .extension e, h => by
    rw [invoke]
    exact checked_all hP h fun qs hqs _ => e.behaviour.run_all hP hc hqs
  | .bound hf hs, h => by
    rw [invoke]
    exact checked_all hP h fun qs hqs _ => (fill_all hs hqs).bind fun rs hrs => invoke_all hP hc hf hrs
  | .entryOf _ hs, h => by
    rw [invoke]
    exact checked_all hP h fun qs hqs _ => soleArgument_all hqs fun key => .ok (lookUpKey_all hs key)
  | .memberOf hs, h => by
    rw [invoke]
    refine checked_all hP h fun qs hqs _ => soleArgument_all hqs fun position => ?_
    exact .bind .true fun i _ => (Members.get_all hs i).bind fun m hm => .ok (.reader hm)

end Function

end XPath
