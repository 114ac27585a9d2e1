import XPath.Expr.Meaning

/-!
# Filters

A filter keeps the items of its selector for which the predicate holds. A predicate whose value is a
number asks for a position, any other one is taken as a boolean. A constant predicate is evaluated
once; one that asks for a position stops the selector there.
-/

namespace XPath

open Producer

/-- What a predicate says. -/
inductive Verdict where
  /-- A number; none if it is not integral. -/
  | position (place : Option Int)
  | truth (b : Bool)
  deriving Repr, DecidableEq

namespace Verdict

/-- The position that a numeric value asks for. -/
def place (a : Atomic) : Option Int :=
  match a.scalar with
  | .integer i => some i
  | _ => a.double?.bind (·.toInt?)

/-- The verdict of the first items of a predicate, which are all of them or enough to decide. -/
def ofItems : List Value → Except Error Verdict
  | .atomic a :: rest => if a.isNumeric then .ok (position (place a)) else do
    return truth (← truthOf (.atomic a :: rest))
  | items => do return truth (← truthOf items)

/-- Whether one item decides. -/
def isDecidedBy (v : Value) : Bool :=
  match v with
  | .node _ => true
  | .atomic a => a.isNumeric
  | _ => false

def step (kept : List Value) (v : Value) : Gathering :=
  if kept.isEmpty && !isDecidedBy v then .more [v] else .enough (v :: kept)

/-- The verdict of a predicate, drawn from as few items as decide it. -/
def read (predicate : Producer) (next : Verdict → Producer) : Producer :=
  gather (fun _ kept v => step kept v) 0 [] predicate fun kept =>
    match ofItems kept.reverse with
    | .ok verdict => next verdict
    | .error e => fail e

/-- Whether the item at a position is kept. -/
def keeps (verdict : Verdict) (index : Nat) : Bool :=
  match verdict with
  | position p => p == some (index : Int)
  | truth b => b

end Verdict

namespace Meaning

/-- The item at a position alone; nothing is drawn past it. -/
def atPosition (source : Producer) (place : Option Int) : Producer :=
  match place with
  | some (.ofNat (n + 1)) =>
    gather (fun i _ v => if i = n then .enough [v] else .more []) 0 [] source ofList
  | _ => done

/-- Filtering by a predicate that looks at no context. -/
def filterConstant (selected predicate : Producer) : Producer :=
  Verdict.read predicate fun
    | .position place => atPosition selected place
    | .truth true => selected
    | .truth false => done

/-- Filtering with the predicate evaluated anew for every item, in its own focus. -/
def filterEach (selected : Producer) (predicate : Meaning) (c : Context) (access : Access) :
    Producer :=
  share selected fun s =>
    forEach 0 (reader s)
      (fun i v =>
        Verdict.read (ofExcept (predicate (c.withFocus (i + 1) v s) access)) fun verdict =>
          if verdict.keeps (i + 1) then singleton v else done)
      fun _ => done

def filter (selector predicate : Operand) : Meaning := fun c access => do
  let selected ← selector.meaning c access
  if predicate.traits.constant then
    return filterConstant selected (← predicate.meaning c access)
  else return filterEach selected predicate.meaning c access

end Meaning

end XPath
