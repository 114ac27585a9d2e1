import XPath.Proofs.Expr.Trees
import XPath.Proofs.Lazy.Peeking

/-!
# Buckets

A host passes over an expression for all nodes outside its bucket. Nothing is lost by it: for such a
node the expression gives barren results, that is none, or the boolean false alone (`Operand.Prunes`).
This says more than that the effective boolean value is false, and it has to: a filter picks from the
results of its selector, a path goes on from those of its first step, and a logical operator inside
either of them gives a boolean where a step gives nodes. `Expr.bucket_sound` puts the rules together
by induction on the tree, for all hosts and all sessions.
-/

namespace XPath

open Producer

variable {h : Host} {c : Context} {access : Access}

/-- There is no result, or the boolean false alone. -/
def Barren (vs : List Value) : Prop := vs.Sublist [.boolean false]

namespace Barren

variable {vs ws : List Value}

theorem nil : Barren [] := List.nil_sublist _

theorem sublist (hv : Barren vs) (hw : ws.Sublist vs) : Barren ws := hw.trans hv

theorem eq_or (hv : Barren vs) : vs = [] ∨ vs = [.boolean false] := by
  cases hv with
  | cons _ hv => exact .inl (List.sublist_nil.1 hv)
  | cons_cons _ hv => exact .inr (by rw [List.sublist_nil.1 hv])

theorem truthOf (hv : Barren vs) : truthOf vs = .ok false := by
  rcases hv.eq_or with rfl | rfl <;> rfl

end Barren

/-- The item in focus is a node that the bucket does not admit. -/
def Bucket.Excludes (b : Bucket) (c : Context) : Prop :=
  ∃ n, c.item = some (.node n) ∧ b.admits n.kind (n.name.map (·.localName)) = false

/-- With a node in focus that its bucket does not admit, the operand gives barren results. -/
def Operand.Prunes (h : Host) (o : Operand) : Prop :=
  ∀ b c access p, o.traits.bucket = some b → b.Excludes c → o.meaning c access = .ok p →
    Keeps h (fun _ => none) Barren [] p

/-! ## Steps -/

/-- A node that passes a test is admitted by its bucket. -/
theorem NodeTest.bucket_admits {test : NodeTest} {principal : NodeKind} {b : Bucket} {n : Node}
    (hb : test.bucket principal = some b) (ht : test.admits principal n) :
    b.admits n.kind (n.name.map (·.localName)) := by
  cases test with
  | anyKind => cases hb
  | kind k =>
    cases hb
    simpa [NodeTest.admits, Bucket.admits] using ht
  | wildcard uri localName =>
    cases hb
    simp only [NodeTest.admits, Bool.and_eq_true, decide_eq_true_eq] at ht
    simp [Bucket.admits, ht.1]
  | name expected =>
    simp only [NodeTest.admits, Bool.and_eq_true, decide_eq_true_eq, beq_iff_eq] at ht
    obtain ⟨hkind, hname⟩ := ht
    simp only [NodeTest.bucket, Option.some.injEq] at hb
    subst hb
    split
    · next hp =>
      obtain ⟨q, hq, rfl⟩ := Option.map_eq_some_iff.1 hname
      simp [Bucket.admits, hkind, hp, hq, QName.expanded]
    · simp [Bucket.admits, hkind]

/-- Of all leaves only a step along the own axis has a bucket, and it gives the node itself or
nothing. -/
theorem Leaf.prunes (op : Leaf) (static? : Option StaticContext) :
    Operand.Prunes h ⟨op.traits, op.meaning static?⟩ := by
  rintro b c access p hb ⟨n, hn, hout⟩ hp
  cases op with
  | literal | contextItem | variableRef | functionRef => cases hb
  | step axis test =>
    simp only [Leaf.traits] at hb
    split at hb
    · next hself =>
      subst hself
      have hnot : test.admits .element n = false := by
        by_contra hyes
        have hin := NodeTest.bucket_admits hb (Bool.not_eq_false _ ▸ hyes)
        rw [hin] at hout
        cases hout
      simp only [Leaf.meaning, hn] at hp
      cases hp
      have hnone : Axis.self.walk access test n = .done := by
        simp [Axis.walk, Axis.emitAll, Axis.principalKind, hnot]
      rw [hnone]
      exact keeps_of_lists .done fun M hM => (List.prefix_nil.1 hM) ▸ Barren.nil
    · cases hb

/-! ## Filters -/

/-- What a filter picks from barren results is barren. -/
theorem Meaning.filter_prunes {selector predicate : Operand} (hs : selector.Prunes h) :
    Operand.Prunes h ⟨BinaryOperator.filter.traits selector.traits predicate.traits,
      Meaning.filter selector predicate⟩ := by
  intro b c access p hb hout hp
  have parts : Parts Barren Barren := fun M N hM hN => hM.sublist hN
  exact Meaning.filter_keeps parts Barren.nil (fun q => hs b c access q hb hout) hp

/-! ## Logic -/

/-- The effective boolean value of an operand, read from the items that it begins with. -/
def Meaning.Tells (h : Host) (m : Meaning) (c : Context) (access : Access) (b : Bool) : Prop :=
  ∃ vs q s t, Begins h (deferred fun _ => m c access) s vs q t ∧ truthOf vs = .ok b

theorem Operand.Prunes.begins {o : Operand} {b : Bucket} {vs : List Value} {q : Producer}
    {s t : Session} (ho : o.Prunes h) (hb : o.traits.bucket = some b) (hout : b.Excludes c)
    (hbegins : Begins h (deferred fun _ => o.meaning c access) s vs q t) : Barren vs := by
  rcases hbegins.of_deferred with rfl | hbegins
  · exact Barren.nil
  · generalize hm : o.meaning c access = reply at hbegins
    cases reply with
    | ok p => exact (ho b c access p hb hout hm).begins Barren.nil hbegins
    | error e =>
      cases hbegins with
      | nil => exact Barren.nil
      | item hd => cases hd

/-- An operand that prunes tells nothing but false. -/
theorem Operand.Prunes.tells {o : Operand} {b : Bucket} {v : Bool} (ho : o.Prunes h)
    (hb : o.traits.bucket = some b) (hout : b.Excludes c) (hv : o.meaning.Tells h c access v) :
    v = false := by
  obtain ⟨vs, q, s, t, hbegins, htruth⟩ := hv
  rw [(ho.begins hb hout hbegins).truthOf] at htruth
  cases htruth
  rfl

/-- A logical operator gives the deciding value if an operand tells it, and the other one if they all
tell the other one. -/
theorem Meaning.tells_of_firstDeciding {deciding : Bool} {ms : List Meaning} {s t : Session}
    {v : Value} {q : Producer}
    (hd : Draws h (firstDeciding deciding c access ms) s (.item v q) t) :
    q = .done ∧ ((v = .boolean deciding ∧ ∃ m ∈ ms, m.Tells h c access deciding) ∨
      (v = .boolean !deciding ∧ ∀ m ∈ ms, m.Tells h c access !deciding)) := by
  induction ms generalizing s with
  | nil =>
    cases hd
    exact ⟨rfl, .inr ⟨rfl, by simp⟩⟩
  | cons m ms ih =>
    rcases hd.of_truth with ⟨vs, b, r, u, w, hbegins, htruth, hd⟩ | ⟨e, he⟩
    · have htells : m.Tells h c access b := ⟨vs, r, s, u, hbegins, htruth⟩
      split at hd
      · next hb =>
        cases hd
        exact ⟨rfl, .inl ⟨rfl, m, List.mem_cons_self, hb ▸ htells⟩⟩
      · next hb =>
        obtain ⟨hq, hcase⟩ := ih hd
        refine ⟨hq, hcase.imp ?_ ?_⟩
        · rintro ⟨hv, m', hmem, hm'⟩
          exact ⟨hv, m', List.mem_cons_of_mem _ hmem, hm'⟩
        · rintro ⟨hv, hall⟩
          rw [← Bool.eq_not_of_ne hb]
          rw [← Bool.eq_not_of_ne hb] at hv hall
          exact ⟨hv, List.forall_mem_cons.2 ⟨htells, hall⟩⟩
    · cases he

/-- A logical operator that does not come to true gives barren results. -/
theorem Meaning.firstDeciding_barren {deciding : Bool} {ms : List Meaning}
    (hone : deciding = true → ∀ m ∈ ms, ¬m.Tells h c access true)
    (hall : deciding = false → ∃ m ∈ ms, ¬m.Tells h c access true) :
    Keeps h (fun _ => none) Barren [] (firstDeciding deciding c access ms) := by
  refine .steady fun M hM => ?_
  cases hM with
  | nil => exact Barren.nil
  | item hd hM =>
    obtain ⟨rfl, hcase⟩ := tells_of_firstDeciding hd
    cases hM with
    | item hd => cases hd
    | nil =>
      rcases hcase with ⟨rfl, m, hmem, hm⟩ | ⟨rfl, hm⟩
      · cases deciding with
        | false => exact List.Sublist.refl _
        | true => exact absurd hm (hone rfl m hmem)
      · cases deciding with
        | false =>
          obtain ⟨m, hmem, hnot⟩ := hall rfl
          exact absurd (hm m hmem) hnot
        | true => exact List.Sublist.refl _

/-- All operands of a disjunction have its bucket. -/
theorem NaryOperator.commonBucket_eq_some {ts : List Traits} {b : Bucket}
    (hb : commonBucket ts = some b) : ∀ t ∈ ts, t.bucket = some b := by
  cases ts with
  | nil => cases hb
  | cons t ts =>
    rw [commonBucket] at hb
    split at hb
    · next hall =>
      refine List.forall_mem_cons.2 ⟨hb, fun t' ht' => ?_⟩
      rw [← hb]
      exact beq_iff_eq.1 (List.all_eq_true.1 hall t' ht')
    · cases hb

theorem Meaning.or_prunes {operands : List Operand} (ho : ∀ o ∈ operands, o.Prunes h) :
    Operand.Prunes h ⟨NaryOperator.or.traits (operands.map (·.traits)),
      Meaning.or (operands.map (·.meaning))⟩ := by
  intro b c access p hb hout hp
  cases hp
  have hall := NaryOperator.commonBucket_eq_some hb
  apply firstDeciding_barren
  · rintro - m hm htells
    obtain ⟨o, hmem, rfl⟩ := List.mem_map.1 hm
    cases (ho o hmem).tells (hall _ (List.mem_map_of_mem hmem)) hout htells
  · intro hf
    cases hf

theorem Meaning.and_prunes {operands : List Operand} (ho : ∀ o ∈ operands, o.Prunes h) :
    Operand.Prunes h ⟨NaryOperator.and.traits (operands.map (·.traits)),
      Meaning.and (operands.map (·.meaning))⟩ := by
  intro b c access p hb hout hp
  cases hp
  obtain ⟨t, ht, hbucket⟩ := List.exists_of_findSome?_eq_some hb
  obtain ⟨o, hmem, rfl⟩ := List.mem_map.1 ht
  apply firstDeciding_barren
  · intro hf
    cases hf
  · rintro -
    refine ⟨o.meaning, List.mem_map_of_mem hmem, fun htells => ?_⟩
    cases (ho o hmem).tells hbucket hout htells

/-! ## Paths -/

/-- Steps taken from no node give nothing, and a step taken from a boolean fails. -/
theorem Meaning.steps_barren {operands : List Operand} {peers : Bool} {inputs : List Value}
    (hi : Barren inputs) {s t : Session} {v : Value} {q : Producer}
    (hd : Draws h (steps c access peers operands inputs (origins c inputs)) s (.item v q) t) :
    ∃ M, Barren M ∧ Draws h (ofList M) s (.item v q) t := by
  induction operands generalizing peers inputs with
  | nil => exact ⟨inputs, hi, hd⟩
  | cons step rest ih =>
    rcases hi.eq_or with rfl | rfl
    · simp only [steps, origins, List.map_nil, fromOrigins, List.reverse_nil, arrange, List.any_nil,
        Bool.false_eq_true, if_false] at hd
      exact ih Barren.nil hd
    · simp only [steps, origins, List.map_cons, Value.isNode] at hd
      cases hd

/-- A path whose first step gives barren results gives barren results. -/
theorem Meaning.path_prunes {operands : List Operand} (ho : ∀ o ∈ operands, o.Prunes h) :
    Operand.Prunes h ⟨NaryOperator.path.traits (operands.map (·.traits)), path operands⟩ := by
  intro b c access p hb hout hp
  cases hp
  cases operands with
  | nil => cases hb
  | cons step rest =>
    have hstep := ho step List.mem_cons_self
    refine .steady fun M hM => ?_
    rw [List.nil_append]
    cases hM with
    | nil => exact Barren.nil
    | @item _ q v M s t hd hM =>
      rw [steps, fromOrigins] at hd
      rcases hd.of_drain with ⟨vs, u, hy, hd⟩ | ⟨_, _, _, he⟩
      · obtain ⟨_, _, hbegins⟩ := hy.begins
        have hvs : Barren vs := hstep.begins hb hout hbegins
        have hturned : (if step.traits.order = .reverse then vs.reverse else vs) = vs := by
          rcases hvs.eq_or with rfl | rfl <;> simp
        have hcollect : (collect [] vs).reverse = vs := by
          rcases hvs.eq_or with rfl | rfl <;> rfl
        simp only [hturned, fromOrigins, hcollect] at hd
        have harrange : vs.any Value.isNode = false := by
          rcases hvs.eq_or with rfl | rfl <;> rfl
        simp only [arrange, harrange, Bool.false_eq_true, if_false] at hd
        obtain ⟨N, hN, hd⟩ := steps_barren hvs hd
        exact hN.sublist ((Producer.Lists.ofList N).loose (.item hd hM)).sublist
      · cases he

/-! ## Trees -/

/-- What has a bucket depends on the context. -/
theorem Expr.not_constant_of_bucket {e : Expr} {b : Bucket} (hb : e.traits.bucket = some b) :
    e.traits.constant = false := by
  induction e using Expr.children_induction with
  | up e ih =>
    cases e with
    | leaf op notes => cases op <;> simp_all [traits, Leaf.traits, Traits.plain]
    | signed => cases hb
    | binary op notes l r =>
      cases op with
      | arithmetic | comparison => cases hb
      | filter =>
        have hl : l.traits.constant = false := ih l List.mem_cons_self hb
        simp [traits, BinaryOperator.traits, hl]
    | nary op notes es =>
      -- An operand with a bucket keeps a logical operator from being constant.
      have operand : ∀ t ∈ traitsOf es, t.bucket = some b → (traitsOf es).all (·.constant) = false := by
        intro t ht hbucket
        rw [traitsOf_eq] at ht
        obtain ⟨e, he, rfl⟩ := List.mem_map.1 ht
        apply List.all_eq_false.2
        exact ⟨e.traits, traitsOf_eq es ▸ List.mem_map_of_mem he, by simp [ih e he hbucket]⟩
      rw [traits] at hb ⊢
      cases op with
      | sequence | squareArray | curlyArray | map | call => cases hb
      | path => rfl
      | and =>
        obtain ⟨t, ht, hbucket⟩ := List.exists_of_findSome?_eq_some hb
        exact operand t ht hbucket
      | or =>
        have hall := NaryOperator.commonBucket_eq_some hb
        generalize traitsOf es = ts at hb hall operand
        cases ts with
        | nil => cases hb
        | cons t ts => exact operand t List.mem_cons_self (hall t List.mem_cons_self)

theorem BinaryOperator.prunes {l r : Operand} (hl : l.Prunes h) (op : BinaryOperator) :
    Operand.Prunes h ⟨op.traits l.traits r.traits, op.meaning l r⟩ := by
  cases op with
  | arithmetic | comparison =>
    intro b _ _ _ hb
    cases hb
  | filter => exact Meaning.filter_prunes hl

theorem NaryOperator.prunes {operands : List Operand} (ho : ∀ o ∈ operands, o.Prunes h)
    (static? : Option StaticContext) (op : NaryOperator) :
    Operand.Prunes h ⟨op.traits (operands.map (·.traits)), op.meaning static? operands⟩ := by
  cases op with
  | sequence | squareArray | curlyArray | map | call =>
    intro b _ _ _ hb
    cases hb
  | or => exact Meaning.or_prunes ho
  | and => exact Meaning.and_prunes ho
  | path => exact Meaning.path_prunes ho

theorem Notes.recall_prunes {traits : Traits} {notes : Notes} {m : Meaning}
    (hn : ∀ b, traits.bucket = some b → notes.cached? = none)
    (hm : Operand.Prunes h ⟨traits, m⟩) : Operand.Prunes h ⟨traits, notes.recall m⟩ := by
  intro b c access p hb hout hp
  apply hm b c access p hb hout
  simpa only [Notes.recall, hn b hb] using hp

namespace Expr

/-- A lawful tree prunes: nothing is cached where there is a bucket. -/
theorem Lawful.prunes {e : Expr} (he : e.Lawful) : Operand.Prunes h ⟨e.traits, e.evaluate⟩ := by
  induction he with
  | @intro e hcache _ ih =>
    have hnone : ∀ b, e.traits.bucket = some b → e.notes.cached? = none := by
      intro b hb
      rcases hn : e.notes.cached? with _ | items
      · rfl
      · have hconstant := (hcache items hn).1
        rw [not_constant_of_bucket hb] at hconstant
        cases hconstant
    cases e with
    | leaf op notes =>
      rw [evaluate]
      exact notes.recall_prunes hnone (Leaf.prunes op notes.static?)
    | signed =>
      intro b _ _ _ hb
      cases hb
    | binary op notes l r =>
      rw [evaluate]
      exact notes.recall_prunes hnone (BinaryOperator.prunes (l := ⟨l.traits, l.evaluate⟩)
        (r := ⟨r.traits, r.evaluate⟩) (ih l List.mem_cons_self) op)
    | nary op notes es =>
      rw [evaluate]
      have ho : ∀ o ∈ operandsOf es, o.Prunes h := by
        rw [operandsOf_eq]
        rintro o ho
        obtain ⟨e, he, rfl⟩ := List.mem_map.1 ho
        exact ih e he
      have htraits : (operandsOf es).map (·.traits) = traitsOf es := by
        simp [operandsOf_eq, traitsOf_eq]
      have hprunes := NaryOperator.prunes ho notes.static? op
      rw [htraits] at hprunes
      exact notes.recall_prunes hnone hprunes

end Expr

/-! ## Callers -/

theorem Producer.Stands.begins {p : Producer} {s t : Session} {vs : List Value}
    {source : Option Producer} (hs : Stands h p s vs source t) : ∃ q u, Begins h p s vs q u := by
  cases source with
  | none => exact Yields.begins hs
  | some q =>
    obtain ⟨r, u, hb, -⟩ := hs
    exact ⟨r, u, hb⟩

namespace Sequence

variable {p : Producer} {P : List Value → Prop} {s t t' u : Session} {q q' : Sequence}

/-- How far a caller may have come when `P` holds of what is in the buffer: the source stands where
the items drawn so far leave it, or it is gone. -/
inductive Holds (h : Host) (p : Producer) (s : Session) (P : List Value → Prop) (q : Sequence)
    (t : Session) : Prop
  | underway (given : List Value) : Stands h p s (given ++ q.buffer) q.source t → Holds h p s P q t
  | spent : q.source = none → P q.buffer → Holds h p s P q t

theorem left_suffix (r : Request) (vs : List Value) : r.left vs <:+ vs := by
  cases r with
  | next => exact List.tail_suffix vs
  | drain => exact List.nil_suffix
  | first | cardinality | truth => exact List.suffix_refl vs

/-- One more request leaves such items in the buffer, and its answer is that of such items. -/
theorem Holds.request {fuel : Nat} {r : Request} {o : Attempt r.Answer} (parts : Parts P P)
    (hp : ∀ vs q t, Begins h p s vs q t → P vs) (hh : Holds h p s P q t)
    (hq : q.serve h fuel t r = (o, q', t')) (ho : o ≠ .exhausted) :
    Holds h p s P q' t' ∧ ∀ a, o = .ready a → ∃ vs, P vs ∧ r.answer vs = .ready a := by
  cases hh with
  | underway given hs =>
    have hserved := served fuel r hs
    rw [hq] at hserved
    cases hserved with
    | exhausted => exact absurd rfl ho
    | pending hs => exact ⟨.underway given hs, nofun⟩
    | raised hsource hy =>
      obtain ⟨_, _, hb⟩ := hy.begins
      exact ⟨.spent hsource (parts _ _ (hp _ _ _ hb) (List.sublist_append_right ..)), nofun⟩
    | @answered q₁ _ hs =>
      obtain ⟨_, _, hb⟩ := hs.begins
      have hbuffer : P q₁.buffer := parts _ _ (hp _ _ _ hb) (List.sublist_append_right ..)
      obtain ⟨front, hfront⟩ := left_suffix r q₁.buffer
      rw [← hfront, ← List.append_assoc] at hs
      exact ⟨.underway (given ++ front) hs, fun a ha => ⟨q₁.buffer, hbuffer, ha⟩⟩
  | spent hsource hP =>
    rw [serve_ended fuel hsource (by rwa [hq])] at hq
    cases hq
    exact ⟨.spent hsource (parts _ _ hP (left_suffix r _).sublist), fun a ha => ⟨_, hP, ha⟩⟩

theorem Serves.holds {xs : List Exchange} (parts : Parts P P)
    (hp : ∀ vs q t, Begins h p u.calm vs q t → P vs) (hrun : Serves h (.ofProducer p) u xs q t) :
    Holds h p u.calm P q t := by
  induction hrun with
  | start =>
    have hstart : Stands h p u.calm ([] ++ (ofProducer p).buffer) (ofProducer p).source u := .start
    exact .underway [] hstart
  | wait topic _ ih =>
    cases ih with
    | underway given hs => exact .underway given (hs.await topic)
    | spent hsource hP => exact .spent hsource hP
  | request fuel _ hq ho ih => exact (ih.request parts hp hq ho).1

/-- If `P` holds of all that a producer begins with, and of parts of that, every answer that a caller
gets is the answer of items of which `P` holds. -/
theorem Serves.answer_holds {xs : List Exchange} {x : Exchange} {a : x.request.Answer}
    (parts : Parts P P) (hp : ∀ vs q t, Begins h p u.calm vs q t → P vs)
    (hrun : Serves h (.ofProducer p) u xs q t) (hx : x ∈ xs) (ha : x.outcome = .ready a) :
    ∃ vs, P vs ∧ x.request.answer vs = .ready a := by
  obtain ⟨ys, zs, rfl⟩ := List.append_of_mem hx
  obtain ⟨fuel, _, _, _, _, hbefore, hserve, ho⟩ := hrun.exchange
  exact ((hbefore.holds parts hp).request parts hp hserve ho).2 a ha

end Sequence

namespace Expr

/-- For a node outside the bucket of an expression, whatever the variables are bound to and whatever
the host answers, the effective boolean value is false if there is one: that of all results, and that
which a caller of the sequence is told at any time. -/
theorem bucket_sound {e : Expr} {b : Bucket} {p : Producer} (he : e.Built)
    (hb : e.traits.bucket = some b) (hout : b.Excludes c) (hp : e.evaluate c access = .ok p)
    (s : Session) :
    (∀ fuel vs u v, p.materialize h fuel [] s = some (.ok vs, u) → truthOf vs = .ok v →
      v = false) ∧
    ∀ xs q t v, Sequence.Serves h (.ofProducer p) s xs q t →
      (⟨.truth, .ready v⟩ : Exchange) ∈ xs → v = false := by
  have hkeeps : Keeps h (fun _ => none) Barren [] p := he.lawful.prunes b c access p hb hout hp
  have barren : ∀ {vs v}, Barren vs → truthOf vs = .ok v → v = false := by
    intro vs v hvs hv
    rw [hvs.truthOf] at hv
    cases hv
    rfl
  constructor
  · intro fuel vs u v hm hv
    obtain ⟨ws, e, hy, hr⟩ := materialize_sound hm
    have hws : Barren ws := hkeeps.yields Barren.nil hy
    rw [List.reverse_nil, List.nil_append] at hr
    cases e with
    | some e => cases hr
    | none =>
      cases hr
      exact barren hws hv
  · intro xs q t v hrun hx
    have parts : Parts Barren Barren := fun M N hM hN => hM.sublist hN
    obtain ⟨vs, hvs, hv⟩ := hrun.answer_holds parts (fun _ _ _ => hkeeps.begins Barren.nil) hx rfl
    apply barren hvs
    simp only [Request.answer] at hv
    generalize truthOf vs = reply at hv
    cases reply with
    | ok b =>
      cases hv
      rfl
    | error e => cases hv

/-- A disjunction of a filter and of a path inside a conjunction, at an element of another name. -/
theorem bucket_sound_nested :
    let root : Node := ⟨0, [], .element, some ⟨none, "r", none⟩, 1⟩
    let own := step .self (.name ⟨none, "a"⟩)
    let e := operator .and [operator .or [filter own contextItem, operator .path [own, contextItem]],
      step .child .anyKind]
    let c := Context.initial (some (.node root)) []
    ∃ p u, e.traits.bucket = some (.localName "a") ∧ (Bucket.localName "a").Excludes c ∧
      e.evaluate c .live = .ok p ∧
      p.materialize .absent 30 [] .empty = some (.ok [.boolean false], u) ∧
      ∀ v, truthOf [.boolean false] = .ok v → v = false := by
  intro root own e c
  have hown : own.Built := .leaf
  have pair : ∀ {op l r}, l.Built → r.Built → (operator op [l, r]).Built := by
    intro op l r hl hr
    apply Built.nary
    intro e he
    rcases List.mem_pair.1 he with rfl | rfl
    · exact hl
    · exact hr
  have hb : e.Built := pair (pair (.binary hown .leaf) (pair hown .leaf)) .leaf
  have hout : (Bucket.localName "a").Excludes c := ⟨root, rfl, by decide⟩
  obtain ⟨p, hp⟩ : ∃ p, e.evaluate c .live = .ok p := ⟨_, rfl⟩
  have hm : (p.materialize .absent 30 [] .empty).map (·.1) = some (.ok [.boolean false]) := by
    cases hp
    rfl
  obtain ⟨⟨r, u⟩, hm, rfl⟩ := Option.map_eq_some_iff.1 hm
  exact ⟨p, u, rfl, hout, hp, hm, fun v hv => (bucket_sound hb rfl hout hp .empty).1 30 _ u v hm hv⟩

end Expr

end XPath
