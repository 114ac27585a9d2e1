import Mathlib.Logic.Relation
import XPath.Proofs.Expr.Invariance

/-!
# Histories

Whoever uses the engine has values, sequences and expressions at hand, and a session that keeps cells.
A history goes from nothing at hand through any operations, in any order: atomic values are made from
scratch, cast and calculated with, put into arrays, maps and functions and taken out again; sequences
are read, shared and atomized; functions are called; expressions are put together, prepared and
evaluated. A property that operations keep holds of all atomic values that ever come about if it holds
of those that the checked constructor makes (`Workspace.Reached.all`). So all of them are concrete as long as the
checked constructor is not asked for a notation (`Workspace.Reached.concrete`), and it is not refused if it is
(`Workspace.notation_reached`).
-/

theorem List.forall_mem_set {α : Type} {Q : α → Prop} {l : List α} (h : ∀ a ∈ l, Q a) {a : α} (ha : Q a)
    (k : Nat) : ∀ b ∈ l.set k a, Q b := by
  intro b hb
  rcases List.mem_or_eq_of_mem_set hb with hb | rfl
  · exact h b hb
  · exact ha

namespace XPath

open Number Relation

/-- What makes a value without being told its type. -/
inductive Atomic.Made : Atomic → Prop
  | boolean (b : Bool) : Made (.boolean b)
  | integer (i : Int) : Made (.integer i)
  | decimal (d : Decimal) : Made (.decimal d)
  | float (f : Single) : Made (.float f)
  | double (d : Double) : Made (.double d)
  | string (s : String) : Made (.string s)
  | untyped (s : String) : Made (.untyped s)
  | anyUri (s : String) : Made (.anyUri s)
  | qName (q : QName) : Made (.qName q)

/-- The items that are given in answer to a request. -/
def Request.given (r : Request) : Attempt r.Answer → List Value
  | .ready answer => r.items answer
  | _ => []

namespace Sequence

/-- The undelivered items. -/
def producer (q : Sequence) : Producer := .append (.ofList q.buffer) fun _ => q.source.getD .done

end Sequence

/-- What is at hand. -/
structure Workspace where
  values : List Value
  shared : List Shared
  sequences : List Sequence
  atomizations : List ItemAtomization
  trees : List Expr
  session : Session

namespace Workspace

def empty : Workspace := ⟨[], [], [], [], [], .empty⟩

/-- More values are at hand. -/
def give (w : Workspace) (vs : List Value) : Workspace := { w with values := vs ++ w.values }

/-- Another sequence is at hand. -/
def begin (w : Workspace) (p : Producer) : Workspace :=
  { w with sequences := w.sequences ++ [.ofProducer p] }

/-- Another expression is at hand. -/
def plant (w : Workspace) (e : Expr) : Workspace := { w with trees := e :: w.trees }

/-- The context consists of what is at hand. -/
structure Holds (w : Workspace) (c : Context) : Prop where
  item : ∀ v ∈ c.item, v ∈ w.values
  sequence : ∀ s ∈ c.sequence, s ∈ w.shared
  scopes : ∀ bound ∈ c.scopes, ∀ b ∈ bound, b.2 ∈ w.shared

/-- One operation on what is at hand. The checked constructor is only asked for permitted types. -/
inductive Step (permitted : TypeName → Prop) (w : Workspace) : Workspace → Prop
  -- atomic values
  | create {name : TypeName} {scalar : Scalar} {a : Atomic} : permitted name →
      Atomic.create name scalar = .ok a → Step permitted w (w.give [.atomic a])
  | make {a : Atomic} : a.Made → Step permitted w (w.give [.atomic a])
  | cast {a b : Atomic} (ns : Namespaces) (target : ItemType) : .atomic a ∈ w.values →
      a.castTo ns target = .ok b → Step permitted w (w.give [.atomic b])
  | sign {a b : Atomic} (sign : Atomic.Sign) : .atomic a ∈ w.values → a.applySign sign = .ok b →
      Step permitted w (w.give [.atomic b])
  | arithmetic {a a' b b' r : Atomic} (op : Atomic.Operator) : .atomic a ∈ w.values →
      .atomic b ∈ w.values → a.numericOperand op = .ok a' → b.numericOperand op = .ok b' →
      a'.arithmetic op b' = .ok r → Step permitted w (w.give [.atomic a', .atomic b', .atomic r])
  -- other values
  | node (n : Node) : Step permitted w (w.give [.node n])
  | list {vs : List Value} : (∀ v ∈ vs, v ∈ w.values) →
      Step permitted w { w with shared := .listed vs :: w.shared }
  | array {ms : List Shared} : (∀ m ∈ ms, m ∈ w.shared) → Step permitted w (w.give [.array ms])
  | map {es : Entries} {v : Value} : (∀ e ∈ es, .atomic e.1 ∈ w.values ∧ e.2 ∈ w.shared) →
      Value.mapOf es = .ok v → Step permitted w (w.give [v])
  | member {ms : List Shared} {m : Shared} : .array ms ∈ w.values → m ∈ ms →
      Step permitted w { w with shared := m :: w.shared }
  | entry {es : Entries} {e : Atomic × Shared} : .map es ∈ w.values → e ∈ es →
      Step permitted w { w with values := .atomic e.1 :: w.values, shared := e.2 :: w.shared }
  | builtin (f : Builtin) : Step permitted w (w.give [.function (.builtin f)])
  | extension (f : Extension) : Step permitted w (w.give [.function (.extension f)])
  | callable {v : Value} {f : Function} : v ∈ w.values → v.callable = .ok f →
      Step permitted w (w.give [.function f])
  | bind {f : Function} {slots : List (Option Shared)} : .function f ∈ w.values →
      (∀ s, some s ∈ slots → s ∈ w.shared) → Step permitted w (w.give [.function (.bound f slots)])
  -- sequences
  | read {s : Shared} : s ∈ w.shared → Step permitted w (w.begin (.reader s))
  | share {q : Sequence} : q ∈ w.sequences → Step permitted w
      { w with
        shared := (w.session.allocate q.producer).1 :: w.shared
        session := (w.session.allocate q.producer).2 }
  | atomize {q : Sequence} (access : Access) : q ∈ w.sequences →
      Step permitted w (w.begin (.atomize access q.producer))
  | request {k : Nat} {q : Sequence} (h : Host) (fuel : Nat) (r : Request) : w.sequences[k]? = some q →
      Step permitted w
        { w.give (r.given (q.serve h fuel w.session r).1) with
          sequences := w.sequences.set k (q.serve h fuel w.session r).2.1
          session := (q.serve h fuel w.session r).2.2 }
  | fetch {s : Shared} {v : Value} (h : Host) (fuel i : Nat) : s ∈ w.shared →
      (s.fetch h fuel i w.session).1 = .ready (some v) →
      Step permitted w { w.give [v] with session := (s.fetch h fuel i w.session).2 }
  | items {s : Shared} {vs : List Value} (h : Host) (fuel : Nat) : s ∈ w.shared →
      (s.items h fuel w.session).1 = .ready vs →
      Step permitted w { w.give vs with session := (s.items h fuel w.session).2 }
  | await (topic : Option Topic) : Step permitted w { w with session := w.session.await topic }
  -- single items
  | start {v : Value} {i : ItemAtomization} : v ∈ w.values → ItemAtomization.start v = .ok i →
      Step permitted w { w with atomizations := w.atomizations ++ [i] }
  | resume {k : Nat} {i : ItemAtomization} {v : Value} (h : Host) (fuel : Nat) :
      w.atomizations[k]? = some i → (i.resume h fuel w.session).1 = .ready (some v) →
      Step permitted w
        { w.give [v] with
          atomizations := w.atomizations.set k (i.resume h fuel w.session).2.1
          session := (i.resume h fuel w.session).2.2 }
  -- functions and expressions
  | call {f : Function} {c : CallContext} {qs : List Sequence} {p : Producer} :
      .function f ∈ w.values → w.Holds c.context → (∀ q ∈ qs, q ∈ w.sequences) →
      f.invoke c (qs.map Sequence.producer) = .ok p → Step permitted w (w.begin p)
  | literal {v : Value} : v ∈ w.values → Step permitted w (w.plant (.literal v))
  | leaf {op : Leaf} : (∀ v, op ≠ .literal v) → Step permitted w (w.plant (.leaf op .blank))
  | signed {e : Expr} (sign : Atomic.Sign) : e ∈ w.trees → Step permitted w (w.plant (.sign sign e))
  | binary {l r : Expr} (op : BinaryOperator) : l ∈ w.trees → r ∈ w.trees →
      Step permitted w (w.plant (.binary op .blank l r))
  | operator {es : List Expr} (op : NaryOperator) : (∀ e ∈ es, e ∈ w.trees) →
      Step permitted w (w.plant (.operator op es))
  | prepare {static : StaticContext} {e : Expr} (fuel : Nat) : e ∈ w.trees →
      (∀ entry ∈ static.functions.entries, .function entry.2.2 ∈ w.values) → Step permitted w
      { w.plant (e.prepare static fuel w.session).1 with
        session := (e.prepare static fuel w.session).2 }
  | evaluate {e : Expr} {c : Context} {p : Producer} (access : Access) : e ∈ w.trees → w.Holds c →
      e.evaluate c access = .ok p → Step permitted w (w.begin p)

/-- What operations lead to, beginning with nothing at hand. -/
def Reached (permitted : TypeName → Prop) (w : Workspace) : Prop :=
  ReflTransGen (Step permitted) empty w

end Workspace

/-! ## Properties of all that is at hand -/

/-- All that is at hand has the property, and so has what is kept in cells. -/
structure Workspace.All (P : Atomic → Prop) (w : Workspace) : Prop where
  values : ∀ v ∈ w.values, v.All P
  shared : ∀ s ∈ w.shared, s.All P
  sequences : ∀ q ∈ w.sequences, q.All P
  atomizations : ∀ i ∈ w.atomizations, i.All P
  trees : ∀ e ∈ w.trees, e.All P
  session : w.session.All P

variable {P : Atomic → Prop} {permitted : TypeName → Prop} {w w' : Workspace}

theorem Atomic.Kept.made (hP : Kept P) {a : Atomic} : a.Made → P a
  | .boolean b => hP.boolean b
  | .integer i => hP.integer i
  | .decimal d => hP.decimal d
  | .float f => hP.float f
  | .double d => hP.double d
  | .string s => hP.string s
  | .untyped s => hP.untyped s
  | .anyUri s => hP.anyUri s
  | .qName q => hP.qName q

theorem Sequence.All.producer {q : Sequence} (hq : q.All P) : q.producer.All P := by
  refine .append (.ofList hq.buffer) ?_
  cases hsource : q.source with
  | none => exact .done
  | some p => exact hq.source p hsource

theorem Request.given_all (r : Request) {o : Attempt r.Answer}
    (h : o.All fun answer => ∀ v ∈ r.items answer, v.All P) : ∀ v ∈ r.given o, v.All P := by
  cases o with
  | ready answer => exact h answer rfl
  | _ => exact List.forall_mem_nil _

namespace Workspace.All

theorem empty : Workspace.empty.All P :=
  ⟨List.forall_mem_nil _, List.forall_mem_nil _, List.forall_mem_nil _, List.forall_mem_nil _,
    List.forall_mem_nil _, Session.All.empty⟩

theorem atomic (hw : w.All P) {a : Atomic} (ha : .atomic a ∈ w.values) : P a := (hw.values _ ha).of_atomic

theorem give (hw : w.All P) {vs : List Value} (h : ∀ v ∈ vs, v.All P) : (w.give vs).All P :=
  { hw with values := List.forall_mem_append.2 ⟨h, hw.values⟩ }

theorem give_one (hw : w.All P) {v : Value} (hv : v.All P) : (w.give [v]).All P :=
  hw.give (List.forall_mem_singleton.2 hv)

theorem begin (hw : w.All P) {p : Producer} (hp : p.All P) : (w.begin p).All P :=
  { hw with
    sequences := List.forall_mem_append.2
      ⟨hw.sequences, List.forall_mem_singleton.2 (Sequence.all_ofProducer hp)⟩ }

theorem plant (hw : w.All P) {e : Expr} (he : e.All P) : (w.plant e).All P :=
  { hw with trees := List.forall_mem_cons.2 ⟨he, hw.trees⟩ }

theorem context (hw : w.All P) {c : Context} (hc : w.Holds c) : c.All P where
  item v hv := hw.values v (hc.item v hv)
  sequence s hs := hw.shared s (hc.sequence s hs)
  scopes bound hbound b hb := hw.shared _ (hc.scopes bound hbound b hb)

/-- An operation keeps to the property. -/
theorem step (hP : Atomic.Kept P)
    (hcreate : ∀ name scalar, permitted name → (Atomic.create name scalar).All P) (hw : w.All P)
    (hstep : w.Step permitted w') : w'.All P := by
  cases hstep with
  | create hname ha => exact hw.give_one (.atomic (hcreate _ _ hname _ ha))
  | make ha => exact hw.give_one (.atomic (hP.made ha))
  | cast ns target ha hb => exact hw.give_one (.atomic (hP.castTo ns _ target (hw.atomic ha) _ hb))
  | sign sign ha hb => exact hw.give_one (.atomic (hP.applySign sign (hw.atomic ha) _ hb))
  | arithmetic op ha hb ha' hb' hr =>
    have ha' := hP.numericOperand op (hw.atomic ha) _ ha'
    have hb' := hP.numericOperand op (hw.atomic hb) _ hb'
    have hr := hP.arithmetic op _ _ _ hr
    exact hw.give (List.forall_mem_cons.2 ⟨.atomic ha', List.forall_mem_cons.2
      ⟨.atomic hb', List.forall_mem_singleton.2 (.atomic hr)⟩⟩)
  | node n => exact hw.give_one (.node n)
  | list hvs =>
    exact { hw with
      shared := List.forall_mem_cons.2 ⟨.listed fun v hv => hw.values v (hvs v hv), hw.shared⟩ }
  | array hms => exact hw.give_one (.array fun m hm => hw.shared m (hms m hm))
  | map hes hv =>
    exact hw.give_one (Meaning.mapOf_all (fun e he => hw.atomic (hes e he).1)
      (fun e he => hw.shared _ (hes e he).2) _ hv)
  | member hms hm =>
    cases hw.values _ hms with
    | array hs => exact { hw with shared := List.forall_mem_cons.2 ⟨hs _ hm, hw.shared⟩ }
  | entry hes he =>
    cases hw.values _ hes with
    | map hk hs =>
      exact { hw with
        values := List.forall_mem_cons.2 ⟨.atomic (hk _ he), hw.values⟩
        shared := List.forall_mem_cons.2 ⟨hs _ he, hw.shared⟩ }
  | builtin f => exact hw.give_one (.function (.builtin f))
  | extension f => exact hw.give_one (.function (.extension f))
  | callable hv hf => exact hw.give_one (.function ((hw.values _ hv).callable _ hf))
  | bind hf hslots =>
    cases hw.values _ hf with
    | function hf => exact hw.give_one (.function (.bound hf fun s hs => hw.shared s (hslots s hs)))
  | read hs => exact hw.begin (.reader (hw.shared _ hs))
  | share hq =>
    exact { hw with
      shared := List.forall_mem_cons.2 ⟨.cell _, hw.shared⟩
      session := hw.session.allocate (hw.sequences _ hq).producer }
  | atomize access hq => exact hw.begin (.atomize hP access (hw.sequences _ hq).producer)
  | request h fuel r hq =>
    obtain ⟨ha, hq, hs⟩ :=
      Sequence.serve_all (h := h) hP fuel (hw.sequences _ (List.mem_of_getElem? hq)) hw.session r
    exact { hw.give (r.given_all ha) with
      sequences := List.forall_mem_set hw.sequences hq _
      session := hs }
  | fetch h fuel i hs hv =>
    obtain ⟨ha, hs⟩ := Shared.fetch_all (h := h) hP fuel (hw.shared _ hs) i hw.session
    exact { hw.give_one (ha _ hv _ rfl) with session := hs }
  | items h fuel hs hvs =>
    obtain ⟨ha, hs⟩ := Shared.items_all (h := h) hP fuel (hw.shared _ hs) hw.session
    exact { hw.give (ha _ hvs) with session := hs }
  | await topic => exact { hw with session := hw.session }
  | start hv hi =>
    exact { hw with
      atomizations := List.forall_mem_append.2 ⟨hw.atomizations,
        List.forall_mem_singleton.2 (ItemAtomization.start_all hP (hw.values _ hv) _ hi)⟩ }
  | resume h fuel hi hv =>
    obtain ⟨ha, hi, hs⟩ := ItemAtomization.resume_all (h := h) hP fuel
      (hw.atomizations _ (List.mem_of_getElem? hi)) hw.session
    exact { hw.give_one (ha _ hv _ rfl) with
      atomizations := List.forall_mem_set hw.atomizations hi _
      session := hs }
  | call hf hc hqs hp =>
    cases hw.values _ hf with
    | function hf =>
      refine hw.begin (Function.invoke_all hP (hw.context hc) hf ?_ _ hp)
      exact List.forall_mem_map.2 fun q hq => (hw.sequences q (hqs q hq)).producer
  | literal hv =>
    refine hw.plant (.leaf ?_ .blank)
    rintro _ ⟨⟩
    exact hw.values _ hv
  | leaf hop => exact hw.plant (.leaf (fun v hv => absurd hv (hop v)) .blank)
  | signed sign he => exact hw.plant (.signed .blank (hw.trees _ he))
  | binary op hl hr => exact hw.plant (.binary .blank (hw.trees _ hl) (hw.trees _ hr))
  | operator op hes => exact hw.plant (.nary .blank fun e he => hw.trees e (hes e he))
  | prepare fuel he hstatic =>
    have hfunctions : StaticContext.All P _ := fun entry hentry => by
      cases hw.values _ (hstatic entry hentry) with
      | function hf => exact hf
    obtain ⟨he, hs⟩ := Expr.prepare_all hP hfunctions (hw.trees _ he) hw.session
    exact { hw.plant he with session := hs }
  | evaluate access he hc hp =>
    exact hw.begin (Expr.evaluate_all hP (hw.trees _ he) (hw.context hc) access _ hp)

end Workspace.All

/-- A property that operations keep holds of all that comes about, if it holds of what the checked
constructor makes. -/
theorem Workspace.Reached.all (hP : Atomic.Kept P)
    (hcreate : ∀ name scalar, permitted name → (Atomic.create name scalar).All P)
    (hw : Reached permitted w) : w.All P := by
  induction hw with
  | refl => exact .empty
  | tail _ hstep ih => exact ih.step hP hcreate hstep

/-! ## Concrete values -/

/-- As long as the checked constructor is not asked for a notation, every atomic value that comes about
has a concrete type and the payload of its primitive type: at hand, within values at hand, and in
cells. -/
theorem Workspace.Reached.concrete (hw : Reached (· ≠ .known .notationName) w) :
    (∀ v ∈ w.values, v.All Atomic.IsConcrete) ∧
      ∀ c ∈ w.session.cells, ∀ v ∈ c.items, v.All Atomic.IsConcrete := by
  have h := hw.all Atomic.kept_isConcrete fun _ scalar hname => Atomic.isConcrete_create hname scalar
  exact ⟨h.values, fun c hc => (h.session c hc).items⟩

/-- A byte is made, and an expression that negates it is prepared, evaluated and drained. -/
theorem Workspace.concrete_negation : ∃ w : Workspace, Reached (· ≠ .known .notationName) w ∧
    w.values = [.atomic (.integer (-5)), .atomic ⟨.byte, .integer 5, by decide⟩] ∧
    (∀ v ∈ w.values, v.All Atomic.IsConcrete) ∧
      ∀ c ∈ w.session.cells, ∀ v ∈ c.items, v.All Atomic.IsConcrete := by
  let five : Atomic := ⟨.byte, .integer 5, by decide⟩
  let negation : Expr := .sign .minus (.literal (.atomic five))
  let static : StaticContext := ⟨.standard, .empty⟩
  have made : Reached (· ≠ .known .notationName) (empty.give [.atomic five]) :=
    .single (@Step.create _ _ (.known .byte) (.integer 5) five nofun (by decide))
  have planted := ((made.tail (.literal List.mem_cons_self)).tail
    (.signed .minus List.mem_cons_self)).tail
    (@Step.prepare _ _ static _ 9 List.mem_cons_self nofun)
  have evaluated := (planted.tail (.evaluate (c := .empty) .live List.mem_cons_self
    ⟨nofun, nofun, by rintro _ (_ | ⟨_, ⟨⟩⟩) _ ⟨⟩⟩ rfl)).tail (.request (k := 0) .absent 9 .drain rfl)
  exact ⟨_, evaluated, rfl, Reached.concrete evaluated⟩

/-- The checked constructor makes a value of the abstract type of notations. -/
theorem Workspace.notation_reached : ∃ a : Atomic,
    Atomic.create (.known .notationName) (.string "x") = .ok a ∧
    a.type ∉ ItemType.concreteAtomic ∧ a.type.isAbstract ∧
    Reached (fun _ => True) (empty.give [.atomic a]) := by
  refine ⟨⟨.notationName, .string "x", by decide⟩, by decide, by decide, by decide, .single ?_⟩
  exact @Step.create _ _ (.known .notationName) (.string "x") _ trivial (by decide)

end XPath
