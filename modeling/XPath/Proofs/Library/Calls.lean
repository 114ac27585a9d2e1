import XPath.Library.Functions
import XPath.Proofs.Lazy.Conversion

/-!
# Calls of array functions

A call with an array and integers reads its arguments in order, each to its end, and then goes on as the
function of members says (`Builtin.ComesTo`, `Members.calls`). It leaves the session as the arguments left
it, so that nothing becomes of the members of its array.
-/

namespace XPath

open Producer

variable {h : Host} {c : CallContext} {access : Access} {place : ParameterPlace} {p : Producer}
  {s t u : Session} {vs ws : List Value} {v w : Value} {members : List Shared} {i : Int} {is : List Int}

/-! ## Arguments -/

/-- An argument that its type takes is converted in the session in which it is read. -/
theorem Producer.Yields.convert (type : SequenceType) (place : ParameterPlace)
    (hp : Yields h (type.source access p) s vs none t) (htakes : type.Takes vs ws) :
    Yields h (p.convert access type place) s ws none t := by
  have hcount : type.occurrence.allows (0 + vs.length) = true := by
    rw [Nat.zero_add]
    exact htakes.count
  by_cases hw : type.IsWidest
  · rw [type.convert_widest place hw, hw.eq_of_takes htakes]
    rwa [hw.source_eq] at hp
  cases hsingle : type.occurrence.isSingle with
  | true =>
    rw [type.convert_single place hw hsingle]
    exact (hp.gather_judges hsingle).takes ws rfl hcount htakes.items
  | false =>
    rw [type.convert_many place hw hsingle]
    exact (hp.forEach_judges 0).takes ws rfl hcount htakes.items

theorem SequenceType.not_isWidest {type : SequenceType} (hsingle : type.occurrence.isSingle = true) :
    ¬type.IsWidest := fun hw => by
  rw [hw.not_isSingle] at hsingle
  cases hsingle

/-- The only item of an argument is drawn once the argument has been read to its end. -/
theorem Producer.Yields.convert_one (type : SequenceType) (place : ParameterPlace)
    (hp : Yields h (type.source access p) s [v] none t) (hsingle : type.occurrence.isSingle = true)
    (hv : v.Converts type.itemType w) :
    ∃ q, Draws h (p.convert access type place) s (.item w q) t := by
  have hcount : type.occurrence.allows 1 = true := by
    generalize type.occurrence = o at hsingle ⊢
    cases o with
    | exactlyOne | zeroOrOne => rfl
    | zeroOrMore | oneOrMore => cases hsingle
  have hy : Yields h (p.convert access type place) s [w] none t :=
    hp.convert type place ⟨hcount, .cons hv .nil⟩
  cases hy with
  | @item _ _ q _ t' _ _ _ hd _ =>
    rw [type.convert_single place (type.not_isWidest hsingle) hsingle] at hd ⊢
    obtain ⟨x, hx⟩ := hd.of_gather_hold
    obtain ⟨-, -, rfl⟩ := hp.unique hx
    exact ⟨q, hd⟩

/-- The argument is an array with these members. -/
def Producer.GivesArray (h : Host) (p : Producer) (s : Session) (members : List Shared) (t : Session) :
    Prop := Yields h p s [.array members] none t

/-- The argument is one integer, of whatever integer type. -/
def Producer.GivesInteger (h : Host) (p : Producer) (s : Session) (i : Int) (t : Session) : Prop :=
  ∃ a : Atomic, a.scalar = .integer i ∧ Yields h p s [.atomic a] none t

/-- The argument is a sequence of integers. -/
def Producer.GivesIntegers (h : Host) (p : Producer) (s : Session) (is : List Int) (t : Session) : Prop :=
  ∃ as : List Atomic, as.map Atomic.scalar = is.map .integer ∧ Yields h p s (as.map .atomic) none t

/-- The argument is a sequence of arrays. -/
def Producer.GivesArrays (h : Host) (p : Producer) (s : Session) (arrays : List (List Shared))
    (t : Session) : Prop := Yields h p s (arrays.map .array) none t

theorem Atomic.converts_integer {a : Atomic} (ha : a.scalar = .integer i) :
    (Value.atomic a).Converts (.known .integer) (.atomic a) := by
  have hfits := a.fits
  rw [ha] at hfits
  exact .instance hfits

theorem Node.converts (n : Node) : (Value.node n).Converts (.known .node) (.node n) := by
  have hkind : ∀ kind : NodeKind, kind.itemType.isSubtypeOf .node = true := by
    intro kind
    cases kind <;> decide
  exact .instance (hkind n.kind)

theorem Atomic.expectInteger_eq {a : Atomic} (ha : a.scalar = .integer i) : a.expectInteger = .ok i := by
  rw [expectInteger, ha]

namespace Producer

theorem GivesArray.draws (ha : p.GivesArray h s members t) :
    ∃ q, Draws h (p.convert access ⟨.known .array, .exactlyOne⟩ place) s (.item (.array members) q) t :=
  Yields.convert_one ⟨.known .array, .exactlyOne⟩ place ha rfl (.instance rfl)

theorem GivesInteger.draws (hi : p.GivesInteger h s i t) :
    ∃ a q, expectInteger (some (.atomic a)) = .ok i ∧
      Draws h (p.convert access ⟨.known .integer, .exactlyOne⟩ place) s (.item (.atomic a) q) t := by
  obtain ⟨a, ha, hy⟩ := hi
  have hatomized : Yields h (atomize access p) s ([a].map .atomic) none t := Yields.atomize hy
  obtain ⟨q, hq⟩ := Yields.convert_one ⟨.known .integer, .exactlyOne⟩ place hatomized rfl
    (Atomic.converts_integer ha)
  exact ⟨a, q, Atomic.expectInteger_eq ha, hq⟩

theorem GivesIntegers.yields (hi : p.GivesIntegers h s is t) :
    ∃ vs, (vs.mapM fun v => expectInteger (some v)) = .ok is ∧
      Yields h (p.convert access ⟨.known .integer, .zeroOrMore⟩ place) s vs none t := by
  obtain ⟨as, has, hy⟩ := hi
  refine ⟨as.map .atomic, ?_, Yields.convert ⟨.known .integer, .zeroOrMore⟩ place hy.atomize ⟨rfl, ?_⟩⟩
  · clear hy
    induction as generalizing is with
    | nil =>
      obtain rfl := List.map_eq_nil_iff.1 has.symm
      rfl
    | cons a as ih =>
      obtain ⟨i, is, rfl, hi, his⟩ := List.map_eq_cons_iff.1 has.symm
      have ha : expectInteger (some (.atomic a)) = .ok i := Atomic.expectInteger_eq hi.symm
      rw [List.map_cons, List.mapM_cons, ha, ih his.symm]
      rfl
  · refine List.forall₂_same.2 fun v hv => ?_
    obtain ⟨a, ha, rfl⟩ := List.mem_map.1 hv
    have hscalar : a.scalar ∈ is.map .integer := has ▸ List.mem_map_of_mem ha
    obtain ⟨i, -, hi⟩ := List.mem_map.1 hscalar
    exact Atomic.converts_integer hi.symm

theorem GivesArrays.yields {arrays : List (List Shared)} (ha : p.GivesArrays h s arrays t) :
    Yields h (p.convert access ⟨.known .array, .zeroOrMore⟩ place) s (arrays.map .array) none t := by
  refine Yields.convert ⟨.known .array, .zeroOrMore⟩ place ha ⟨rfl, List.forall₂_same.2 fun v hv => ?_⟩
  obtain ⟨members, -, rfl⟩ := List.mem_map.1 hv
  exact .instance rfl

end Producer

/-- A built-in function that is called with as many arguments as it has parameters gets them converted. -/
theorem Function.invoke_builtin {b : Builtin} {types : List SequenceType} {arguments : List Producer}
    (htypes : b.signature.parameters = types) (hcount : arguments.length = types.length) :
    (Function.builtin b).invoke c arguments = b.run c ((types.zip arguments).zipIdx.map
      fun ((type, a), i) => a.convert c.access type ⟨b.signature.label, i + 1⟩) := by
  subst htypes
  have harity : ¬arguments.length ≠ (Function.builtin b).arity := not_not.2 hcount
  have hconvert : convertArguments c.access (Function.builtin b).label
      (Function.builtin b).signature.parameters arguments = .ok _ := if_pos hcount.symm
  rw [invoke, if_neg harity, hconvert]
  rfl

/-! ## Replies -/

/-- The call of a built-in function in the session `s` goes on as the reply does in the session `t`. -/
def Builtin.ComesTo (h : Host) (c : CallContext) (b : Builtin) (arguments : List Producer) (s : Session)
    (reply : Reply) (t : Session) : Prop :=
  ∃ p, (Function.builtin b).invoke c arguments = .ok p ∧
    ∀ d u, Draws h (ofExcept reply) t d u → Draws h p s d u

/-- An array and an integer are read one after the other. -/
theorem Producer.Draws.withPosition {a p : Producer} {place place' : ParameterPlace}
    {next : List Shared → Int → Reply} {d : Draw} {w : Session} (ha : a.GivesArray h s members t)
    (hp : p.GivesInteger h t i u) (hd : Draws h (ofExcept (next members i)) u d w) :
    Draws h (withFirsts [a.convert access ⟨.known .array, .exactlyOne⟩ place,
        p.convert access ⟨.known .integer, .exactlyOne⟩ place'] fun firsts => do
      let members ← expectArray firsts.head?.join
      next members (← expectInteger firsts[1]?.join)) s d w := by
  obtain ⟨_, ha⟩ := ha.draws
  obtain ⟨x, _, hx, hp⟩ := hp.draws
  refine .gather_enough ha rfl (.gather_enough hp rfl ?_)
  change Draws h (ofExcept (expectInteger (some (.atomic x)) >>= next members)) u d w
  rw [hx]
  exact hd

/-- Integers are read to their end. -/
theorem Producer.Draws.withPositions {next : List Int → Reply} {d : Draw} (hp : p.GivesIntegers h s is t)
    (hd : Draws h (ofExcept (next is)) t d u) :
    Draws h (withAll (p.convert access ⟨.known .integer, .zeroOrMore⟩ place) fun items => do
      next (← items.mapM fun v => expectInteger (some v))) s d u := by
  obtain ⟨vs, hvs, hp⟩ := hp.yields
  refine Yields.drain hp ?_
  change Draws h (ofExcept ((vs.mapM fun v => expectInteger (some v)) >>= next)) t d u
  rw [hvs]
  exact hd

/-- Calls of array functions go on as the functions of members say. A new member is put into a cell
before the other arguments are read. -/
structure Members.Calls (h : Host) (c : CallContext) (members : List Shared) : Prop where
  get : ∀ a p i s t u, a.GivesArray h s members t → p.GivesInteger h t i u →
    Builtin.ComesTo h c .arrayGet [a, p] s ((Members.get members i).map reader) u
  put : ∀ a p m i s t u, a.GivesArray h (s.allocate m).2 members t → p.GivesInteger h t i u →
    Builtin.ComesTo h c .arrayPut [a, p, m] s (Members.put members i (s.allocate m).1 >>= Reply.array) u
  append : ∀ a m s t, a.GivesArray h (s.allocate m).2 members t →
    Builtin.ComesTo h c .arrayAppend [a, m] s (Reply.array (members ++ [(s.allocate m).1])) t
  subarrayFrom : ∀ a p i s t u, a.GivesArray h s members t → p.GivesInteger h t i u →
    Builtin.ComesTo h c (.arraySubarray false) [a, p] s (Members.subarrayFrom members i >>= Reply.array) u
  subarray : ∀ a p l i j s t u v, a.GivesArray h s members t → p.GivesInteger h t i u →
    l.GivesInteger h u j v →
    Builtin.ComesTo h c (.arraySubarray true) [a, p, l] s (Members.subarray members i j >>= Reply.array) v
  remove : ∀ a ps is s t u, a.GivesArray h s members t → ps.GivesIntegers h t is u →
    Builtin.ComesTo h c .arrayRemove [a, ps] s (Members.remove members is >>= Reply.array) u
  insertBefore : ∀ a p m i s t u, a.GivesArray h (s.allocate m).2 members t → p.GivesInteger h t i u →
    Builtin.ComesTo h c .arrayInsertBefore [a, p, m] s
      (Members.insertBefore members i (s.allocate m).1 >>= Reply.array) u
  head : ∀ a s t, a.GivesArray h s members t →
    Builtin.ComesTo h c .arrayHead [a] s ((Members.get members 1).map reader) t
  tail : ∀ a s t, a.GivesArray h s members t →
    Builtin.ComesTo h c .arrayTail [a] s (Members.remove members [1] >>= Reply.array) t
  join : ∀ as arrays s t, as.GivesArrays h s arrays t →
    Builtin.ComesTo h c .arrayJoin [as] s (Reply.array arrays.flatten) t

theorem Members.calls (h : Host) (c : CallContext) (members : List Shared) : Members.Calls h c members where
  get a p i s t u ha hp := ⟨_, rfl, fun _ _ hd => .withPosition ha hp hd⟩
  put a p m i s t u ha hp := ⟨_, rfl, fun _ _ hd => .share (.withPosition ha hp hd)⟩
  append a m s t ha := by
    obtain ⟨_, ha⟩ := ha.draws
    exact ⟨_, rfl, fun _ _ hd => .share (.gather_enough ha rfl hd)⟩
  subarrayFrom a p i s t u ha hp := ⟨_, rfl, fun _ _ hd => .withPosition ha hp hd⟩
  subarray a p l i j s t u v ha hp hl := by
    obtain ⟨_, ha⟩ := ha.draws
    obtain ⟨x, _, hx, hp⟩ := hp.draws
    obtain ⟨y, _, hy, hl⟩ := hl.draws
    refine ⟨_, rfl, fun d w hd => .gather_enough ha rfl (.gather_enough hp rfl (.gather_enough hl rfl ?_))⟩
    change Draws h (ofExcept (expectInteger (some (.atomic x)) >>= fun i =>
      expectInteger (some (.atomic y)) >>= fun j => subarray members i j >>= Reply.array)) v d w
    rw [hx, hy]
    exact hd
  remove a ps is s t u ha hp := by
    obtain ⟨_, ha⟩ := ha.draws
    refine ⟨_, rfl, fun d w hd => .gather_enough ha rfl ?_⟩
    change Draws h (withAll _ fun items => do
      Reply.array (← Members.remove members (← items.mapM fun v => expectInteger (some v)))) t d w
    exact .withPositions hp hd
  insertBefore a p m i s t u ha hp := ⟨_, rfl, fun _ _ hd => .share (.withPosition ha hp hd)⟩
  head a s t ha := by
    obtain ⟨_, ha⟩ := ha.draws
    exact ⟨_, rfl, fun _ _ hd => .gather_enough ha rfl hd⟩
  tail a s t ha := by
    obtain ⟨_, ha⟩ := ha.draws
    exact ⟨_, rfl, fun _ _ hd => .gather_enough ha rfl hd⟩
  join as arrays s t ha := by
    have hlists : ((arrays.map Value.array).mapM fun v => expectArray (some v)) = .ok arrays := by
      clear ha
      induction arrays with
      | nil => rfl
      | cons members arrays ih =>
        rw [List.map_cons, List.mapM_cons, ih]
        rfl
    refine ⟨_, rfl, fun d u hd => ha.yields.drain ?_⟩
    change Draws h (ofExcept (((arrays.map Value.array).mapM fun v => expectArray (some v)) >>= _)) t d u
    rw [hlists]
    exact hd

end XPath
