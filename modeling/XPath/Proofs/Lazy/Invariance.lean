import XPath.Lazy.Machine
import XPath.Nodes.Content
import XPath.Proofs.Atomic.Concreteness

/-!
# Properties of all atomic values

A property of atomic values is extended to all that holds some: to values, to what is put into
contexts, and to producers. A producer has the property if it gives only such values as long as it is
given no others (`Producer.All`): what it reads from cells, and what the functions that it calls make
of their arguments, is up to the machine. Every combinator makes such producers of such producers; a
node is atomized to a text, and an argument is converted by a cast.
-/

theorem Option.forall_mem_none {α : Type} (Q : α → Prop) : ∀ a ∈ (none : Option α), Q a :=
  fun a ha => absurd ha (Option.not_mem_none a)

theorem Option.forall_mem_some {α : Type} {Q : α → Prop} {a : α} (ha : Q a) : ∀ b ∈ some a, Q b := by
  rintro _ ⟨⟩
  exact ha

theorem List.forall_mem_reverse {α : Type} {Q : α → Prop} {l : List α} (h : ∀ a ∈ l, Q a) :
    ∀ a ∈ l.reverse, Q a := fun a ha => h a (List.mem_reverse.1 ha)

namespace XPath

/-! ## Values -/

mutual

/-- All atomic values in the value have the property. Cells are not looked into. -/
inductive Value.All (P : Atomic → Prop) : Value → Prop
  | atomic {a : Atomic} : P a → Value.All P (.atomic a)
  | node (n : Node) : Value.All P (.node n)
  | map {es : Entries} : (∀ e ∈ es, P e.1) → (∀ e ∈ es, Shared.All P e.2) → Value.All P (.map es)
  | array {ms : List Shared} : (∀ m ∈ ms, Shared.All P m) → Value.All P (.array ms)
  | function {f : Function} : Function.All P f → Value.All P (.function f)

inductive Shared.All (P : Atomic → Prop) : Shared → Prop
  | listed {vs : List Value} : (∀ v ∈ vs, Value.All P v) → Shared.All P (.listed vs)
  | cell (id : Nat) : Shared.All P (.cell id)

inductive Function.All (P : Atomic → Prop) : Function → Prop
  | builtin (f : Builtin) : Function.All P (.builtin f)
  | extension (f : Extension) : Function.All P (.extension f)
  | bound {f : Function} {slots : List (Option Shared)} : Function.All P f →
      (∀ s, some s ∈ slots → Shared.All P s) → Function.All P (.bound f slots)
  | entryOf {es : Entries} : (∀ e ∈ es, P e.1) → (∀ e ∈ es, Shared.All P e.2) →
      Function.All P (.entryOf es)
  | memberOf {ms : List Shared} : (∀ m ∈ ms, Shared.All P m) → Function.All P (.memberOf ms)

end

variable {P : Atomic → Prop} {v : Value} {vs : List Value} {s : Shared}

theorem Value.All.of_atomic {a : Atomic} (h : (Value.atomic a).All P) : P a := by
  cases h with
  | atomic ha => exact ha

theorem Value.All.callable (h : v.All P) : v.callable.All (Function.All P) := by
  cases h with
  | atomic | node => exact .error
  | map hk hs => exact .ok (.entryOf hk hs)
  | array hs => exact .ok (.memberOf hs)
  | function hf => exact .ok hf

theorem Value.all_atomics (h : ∀ v ∈ vs, v.All P) : ∀ a ∈ vs.filterMap Value.atomic?, P a := by
  intro a ha
  obtain ⟨v, hv, heq⟩ := List.mem_filterMap.1 ha
  cases v with
  | atomic b =>
    cases heq
    exact (h _ hv).of_atomic
  | _ => cases heq

theorem Value.all_nodes (ns : List Node) : ∀ v ∈ ns.map Value.node, v.All P := by
  intro v hv
  obtain ⟨n, -, rfl⟩ := List.mem_map.1 hv
  exact .node n

theorem Entries.get?_all {es : Entries} (h : ∀ e ∈ es, e.2.All P) (key : Atomic) :
    ∀ s ∈ es.get? key, s.All P := by
  intro s hs
  obtain ⟨e, he, rfl⟩ := Option.map_eq_some_iff.1 hs
  exact h e (List.mem_of_find?_eq_some he)

/-! ## Contexts and parts of producers -/

structure Context.All (P : Atomic → Prop) (c : Context) : Prop where
  item : ∀ v ∈ c.item, v.All P
  sequence : ∀ s ∈ c.sequence, s.All P
  scopes : ∀ bound ∈ c.scopes, ∀ b ∈ bound, b.2.All P

inductive Gathering.All (P : Atomic → Prop) : Gathering → Prop
  | more {kept : List Value} : (∀ v ∈ kept, v.All P) → Gathering.All P (.more kept)
  | enough {kept : List Value} : (∀ v ∈ kept, v.All P) → Gathering.All P (.enough kept)
  | fail (e : Error) : Gathering.All P (.fail e)

inductive Goal.All (P : Atomic → Prop) : Goal → Prop
  | items {a b : Value} : a.All P → b.All P → Goal.All P (.items a b)
  | members {a b : Shared} {i : Nat} : a.All P → b.All P → Goal.All P (.members a b i)
  | differ : Goal.All P .differ

inductive Call.All (P : Atomic → Prop) : Call → Prop
  | read (cell index : Nat) : Call.All P (.read cell index)
  | leaves {ms : List Shared} : (∀ m ∈ ms, m.All P) → Call.All P (.leaves ms)
  | equal {access : Access} {gs : List Goal} : (∀ g ∈ gs, g.All P) → Call.All P (.equal access gs)

/-- The producer gives only values with the property, and puts only such values into cells, as long as
it is given no others. -/
inductive Producer.All (P : Atomic → Prop) : Producer → Prop
  | done : Producer.All P .done
  | fail (e : Error) : Producer.All P (.fail e)
  | emit {v p} : v.All P → Producer.All P p → Producer.All P (.emit v p)
  | append {p f} : Producer.All P p → Producer.All P (f ()) → Producer.All P (.append p f)
  | ask {q k} : (∀ a, Producer.All P (k a)) → Producer.All P (.ask q k)
  | fetch {s i k} : s.All P → (∀ x : Option Value, (∀ v ∈ x, v.All P) → Producer.All P (k x)) →
      Producer.All P (.fetch s i k)
  | length {s k} : (∀ n, Producer.All P (k n)) → Producer.All P (.length s k)
  | share {p k} : Producer.All P p → (∀ s : Shared, s.All P → Producer.All P (k s)) →
      Producer.All P (.share p k)
  | gather {step i kept p k} : Producer.All P p → (∀ v ∈ kept, v.All P) →
      (∀ i kept v, (∀ w ∈ kept, w.All P) → v.All P → (step i kept v).All P) →
      (∀ kept, (∀ v ∈ kept, v.All P) → Producer.All P (k kept)) →
      Producer.All P (.gather step i kept p k)
  | forEach {i p body finish} : Producer.All P p →
      (∀ i v, v.All P → Producer.All P (body i v)) → (∀ i, Producer.All P (finish i)) →
      Producer.All P (.forEach i p body finish)
  | apply {f c ps k} : f.All P → c.context.All P → (∀ p ∈ ps, Producer.All P p) →
      (∀ s : Shared, s.All P → Producer.All P (k s)) → Producer.All P (.apply f c ps k)
  | call {c} : c.All P → Producer.All P (.call c)
  | log {label items p} : Producer.All P p → Producer.All P (.log label items p)
  | pause {p} : Producer.All P p → Producer.All P (.pause p)
  | tick {p} : Producer.All P p → Producer.All P (.tick p)

/-- A reply that is no error is a producer with the property. -/
abbrev Reply.All (P : Atomic → Prop) (r : Reply) : Prop := Except.All (Producer.All P) r

namespace Producer.All

variable {p q : Producer} {ps : List Producer}

theorem ofList (h : ∀ v ∈ vs, v.All P) : (ofList vs).All P := by
  induction vs with
  | nil => exact .done
  | cons v vs ih =>
    obtain ⟨hv, hvs⟩ := List.forall_mem_cons.1 h
    exact .emit hv (ih hvs)

theorem singleton (h : v.All P) : (singleton v).All P := .emit h .done

theorem atomic {a : Atomic} (h : P a) : (Producer.singleton (.atomic a)).All P := singleton (.atomic h)

theorem ofExcept {r : Reply} (h : r.All P) : (ofExcept r).All P := by
  cases r with
  | ok p => exact h p rfl
  | error e => exact .fail e

theorem deferred {build : Unit → Reply} (h : Reply.All P (build ())) : (deferred build).All P :=
  .append .done (ofExcept h)

theorem concat (h : ∀ p ∈ ps, p.All P) : (concat ps).All P := by
  induction ps with
  | nil => exact .done
  | cons p ps ih =>
    obtain ⟨hp, hps⟩ := List.forall_mem_cons.1 h
    exact .append hp (ih hps)

theorem reader (h : s.All P) : (reader s).All P := by
  cases h with
  | listed hv => exact ofList hv
  | cell id => exact .call (.read id 0)

theorem readers {ms : List Shared} (h : ∀ m ∈ ms, m.All P) : (readers ms).All P :=
  concat (List.forall_mem_map.2 fun m hm => reader (h m hm))

theorem shareAll {k : List Shared → Producer} (h : ∀ p ∈ ps, p.All P)
    (hk : ∀ ss : List Shared, (∀ s ∈ ss, s.All P) → (k ss).All P) : (shareAll ps k).All P := by
  induction ps generalizing k with
  | nil => exact hk [] (List.forall_mem_nil _)
  | cons p ps ih =>
    obtain ⟨hp, hps⟩ := List.forall_mem_cons.1 h
    refine .share hp fun s hs => ih hps fun ss hss => ?_
    exact hk (s :: ss) (List.forall_mem_cons.2 ⟨hs, hss⟩)

theorem drain {k : List Value → Producer} (hp : p.All P)
    (hk : ∀ vs : List Value, (∀ v ∈ vs, v.All P) → (k vs).All P) : (drain p k).All P := by
  refine .gather hp (List.forall_mem_nil _) ?_ ?_
  · exact fun _ kept v hkept hv => .more (List.forall_mem_cons.2 ⟨hv, hkept⟩)
  · exact fun kept hkept => hk kept.reverse (List.forall_mem_reverse hkept)

theorem first {k : Option Value → Producer} (hp : p.All P)
    (hk : ∀ x : Option Value, (∀ v ∈ x, v.All P) → (k x).All P) : (first p k).All P := by
  refine .gather hp (List.forall_mem_nil _) ?_ ?_
  · exact fun _ _ v _ hv => .enough (List.forall_mem_singleton.2 hv)
  · exact fun kept hkept => hk kept.head? fun v hv => hkept v (List.mem_of_mem_head? hv)

theorem firsts {k : List (Option Value) → Producer} (h : ∀ p ∈ ps, p.All P)
    (hk : ∀ xs : List (Option Value), (∀ x ∈ xs, ∀ v ∈ x, v.All P) → (k xs).All P) :
    (firsts ps k).All P := by
  induction ps generalizing k with
  | nil => exact hk [] (List.forall_mem_nil _)
  | cons p ps ih =>
    obtain ⟨hp, hps⟩ := List.forall_mem_cons.1 h
    refine .first hp fun x hx => ih hps fun xs hxs => ?_
    exact hk (x :: xs) (List.forall_mem_cons.2 ⟨hx, hxs⟩)

theorem truth {k : Bool → Producer} (hp : p.All P) (hk : ∀ b, (k b).All P) : (truth p k).All P := by
  refine .gather hp (List.forall_mem_nil _) (fun _ kept v hkept hv => ?_) fun kept _ => ?_
  · rw [truthStep]
    split
    · exact .more (List.forall_mem_singleton.2 hv)
    · exact .enough (List.forall_mem_cons.2 ⟨hv, hkept⟩)
  · cases truthOf kept.reverse with
    | ok b => exact hk b
    | error e => exact .fail e

theorem flatMap {body : Value → Producer} (hp : p.All P) (hbody : ∀ v, v.All P → (body v).All P) :
    (flatMap p body).All P :=
  .forEach hp (fun _ => hbody) fun _ => .done

/-- One item, or the error of computing it. -/
theorem ofItem : ∀ {x : Except Error Value}, x.All (Value.All P) → Producer.All P (match x with
    | .ok w => .singleton w
    | .error e => .fail e) := by
  intro x h
  cases x with
  | ok w => exact singleton (h w rfl)
  | error e => exact .fail e

theorem mapItems {f : Value → Except Error Value} (hp : p.All P)
    (hf : ∀ v, v.All P → (f v).All (Value.All P)) : (mapItems p f).All P :=
  flatMap hp fun v hv => ofItem (hf v hv)

/-- What the host answers holds no atomic values. -/
theorem perform {α : Type} (access : Access) (t : Task α) {k : α → Producer} (hk : ∀ a, (k a).All P) :
    (perform access t k).All P := by
  induction t with
  | pure a => exact hk a
  | fail e => exact .fail e
  | ask q next ih =>
    cases access with
    | live => exact .ask ih
    | detached => exact .fail _

theorem flatten (hp : p.All P) : (flatten p).All P := by
  refine flatMap hp fun v hv => ?_
  cases hv with
  | array hs => exact .call (.leaves hs)
  | atomic ha => exact atomic ha
  | node n => exact singleton (.node n)
  | map hk hs => exact singleton (.map hk hs)
  | function hf => exact singleton (.function hf)

end Producer.All

/-! ## Atomization and conversion -/

/-- A node has an untyped value or a string. -/
theorem Producer.All.typedValue (hP : Atomic.Kept P) (access : Access) (n : Node)
    {k : Atomic → Producer} (hk : ∀ a, P a → (k a).All P) :
    (Producer.perform access n.typedValue k).All P := by
  have text (t : Task String) (make : String → Atomic) (hmake : ∀ text, P (make text)) :
      (Producer.perform access (do return make (← t)) k).All P := by
    induction t with
    | pure text => exact hk _ (hmake text)
    | fail e => exact .fail e
    | ask q next ih =>
      cases access with
      | live => exact .ask ih
      | detached => exact .fail _
  unfold Node.typedValue
  split
  case h_1 | h_2 | h_5 => exact text _ _ hP.untyped
  case h_3 | h_4 => exact text _ _ hP.string

theorem Producer.All.atomize (hP : Atomic.Kept P) (access : Access) {p : Producer} (hp : p.All P) :
    (atomize access p).All P := by
  refine flatMap (flatten hp) fun v hv => ?_
  cases hv with
  | atomic ha => exact atomic ha
  | node n => exact .typedValue hP access n fun a ha => atomic ha
  | array | map | function => exact .fail _

theorem Atomic.Kept.convertTo (hP : Kept P) {a : Atomic} (ha : P a) (expected : ItemType) :
    (a.convertTo expected).All P := by
  unfold Atomic.convertTo
  split
  · exact .ok ha
  split
  · exact hP.castTo _ _ _ ha
  · exact .error

theorem Value.All.convertTo (hP : Atomic.Kept P) (hv : v.All P) (type : SequenceType)
    (place : ParameterPlace) : (v.convertTo type place).All (Value.All P) := by
  unfold Value.convertTo
  split
  · next _ a t _ =>
    split
    · have h := hP.convertTo hv.of_atomic t
      cases hb : a.convertTo t with
      | ok b => exact .ok (.atomic (h b hb))
      | error e => exact .error
    split
    · exact .ok hv
    · exact .error
  · split
    · exact .ok hv
    · exact .error

theorem Producer.All.convert (hP : Atomic.Kept P) (access : Access) (type : SequenceType)
    (place : ParameterPlace) {p : Producer} (hp : p.All P) : (p.convert access type place).All P := by
  unfold Producer.convert
  split
  · exact hp
  have hsource : (if type.isAtomic then Producer.atomize access p else p).All P := by
    split
    · exact hp.atomize hP access
    · exact hp
  have hfinish (count : Nat) {held : List Value} (hheld : ∀ v ∈ held, v.All P) :
      (if type.occurrence.allows count then Producer.ofList held
        else Producer.fail (place.wrongCount type count)).All P := by
    split
    · exact .ofList hheld
    · exact .fail _
  dsimp only
  split
  · refine .gather hsource (List.forall_mem_nil _) (fun i _ v _ hv => ?_) fun held hheld => hfinish _ hheld
    have hc := hv.convertTo hP type place
    split
    · exact .fail _
    · cases hw : v.convertTo type place with
      | ok w => exact .more (List.forall_mem_singleton.2 (hc w hw))
      | error e => exact .fail e
  · exact .forEach hsource (fun _ v hv => .ofItem (hv.convertTo hP type place)) fun count =>
      hfinish count (List.forall_mem_nil _)

theorem convertArguments_all (hP : Atomic.Kept P) (access : Access) (function : String)
    (types : List SequenceType) {ps : List Producer} (hps : ∀ p ∈ ps, p.All P) :
    (convertArguments access function types ps).All fun qs =>
      qs.length = types.length ∧ ∀ q ∈ qs, q.All P := by
  rw [convertArguments]
  split
  · next hl =>
    refine .ok ⟨by simp [hl], fun q hq => ?_⟩
    obtain ⟨⟨⟨type, p⟩, i⟩, hmem, rfl⟩ := List.mem_map.1 hq
    have hp := (List.of_mem_zip (List.fst_mem_of_mem_zipIdx hmem)).2
    exact (hps p hp).convert hP access type _
  · exact .error

/-! ## Calls -/

theorem Goal.entries_all {left right : Entries} (hl : ∀ e ∈ left, e.2.All P)
    (hr : ∀ e ∈ right, e.2.All P) : ∀ g ∈ Goal.entries left right, g.All P := by
  refine List.forall_mem_map.2 fun (key, value) he => ?_
  dsimp only
  split
  · next other h => exact .members (hl _ he) (Entries.get?_all hr key other h)
  · exact .differ

theorem Goal.unfold_all (hP : Atomic.Kept P) (access : Access) {a b : Value} {rest : List Goal}
    (ha : a.All P) (hb : b.All P) (hrest : ∀ g ∈ rest, g.All P) :
    (Goal.unfold access a b rest).All P := by
  have verdict (equal : Bool) : (if equal then .call (.equal access rest)
      else .singleton (.boolean false) : Producer).All P := by
    cases equal
    · exact .atomic (hP.boolean false)
    · exact .call (.equal hrest)
  unfold Goal.unfold
  dsimp only
  split
  · exact verdict _
  · split
    · cases ha with
      | map _ hl =>
        cases hb with
        | map _ hr => exact .call (.equal (List.forall_mem_append.2 ⟨Goal.entries_all hl hr, hrest⟩))
    · exact verdict false
  · split
    · cases ha with
      | array hl =>
        cases hb with
        | array hr =>
          refine .call (.equal (List.forall_mem_append.2 ⟨List.forall_mem_map.2 ?_, hrest⟩))
          intro (x, y) hxy
          exact .members (hl x (List.of_mem_zip hxy).1) (hr y (List.of_mem_zip hxy).2)
    · exact verdict false
  · exact .perform access _ verdict
  · exact verdict false

/-- What a call stands for. -/
theorem Call.All.body (hP : Atomic.Kept P) {c : Call} (hc : c.All P) : c.body.All P := by
  cases hc with
  | read cell index =>
    refine .fetch (.cell cell) fun x hx => ?_
    cases x with
    | some v => exact .emit (hx v rfl) (.call (.read cell (index + 1)))
    | none => exact .done
  | leaves hs => exact .flatten (.readers hs)
  | @equal access gs hgs =>
    cases gs with
    | nil => exact .atomic (hP.boolean true)
    | cons g rest =>
      obtain ⟨hg, hrest⟩ := List.forall_mem_cons.1 hgs
      cases hg with
      | differ => exact .atomic (hP.boolean false)
      | items ha hb => exact Goal.unfold_all hP access ha hb hrest
      | members ha hb =>
        refine .fetch ha fun x hx => .fetch hb fun y hy => ?_
        cases x <;> cases y
        case none.none => exact .call (.equal hrest)
        case some.some =>
          refine .call (.equal (List.forall_mem_cons.2 ⟨.items (hx _ rfl) (hy _ rfl), ?_⟩))
          exact List.forall_mem_cons.2 ⟨.members ha hb, hrest⟩
        all_goals exact .atomic (hP.boolean false)

end XPath
