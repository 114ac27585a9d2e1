import XPath.Context
import XPath.Host

/-!
# Producers

A producer describes how the items of a sequence come about, as data that a machine advances item by
item. It may ask the host, read and create shared cells, draw items from other producers, and call
functions. A producer that has to wait is left as it is, so it can be advanced again later.

The combinators below are all that the rest of the library uses.
-/

namespace XPath

/-- What one more item means to a gathering of items; the items kept are given newest first. -/
inductive Gathering where
  /-- Go on with these items. -/
  | more (kept : List Value)
  /-- Stop drawing. -/
  | enough (kept : List Value)
  | fail (e : Error)

/-- One part of a comparison of items. -/
inductive Goal where
  | items (a b : Value)
  /-- The items of two sequences, pairwise, from an index on. -/
  | members (a b : Shared) (index : Nat)
  /-- Never met. -/
  | differ

/-- Computations whose extent is known only when they run; the machine unfolds them. -/
inductive Call where
  /-- The items of a cell from an index on. -/
  | read (cell : Nat) (index : Nat)
  /-- The items of array members, arrays among them replaced by their own. -/
  | leaves (members : List Shared)
  /-- Whether all goals are met, as a single boolean; they are tried in order. -/
  | equal (access : Access) (goals : List Goal)

inductive Producer where
  | done
  | fail (e : Error)
  | emit (v : Value) (rest : Producer)
  | append (first : Producer) (second : Unit → Producer)
  /-- Ask the host. -/
  | ask (q : Query) (next : q.Answer → Producer)
  /-- One item of a shared sequence, none past its end. -/
  | fetch (s : Shared) (index : Nat) (next : Option Value → Producer)
  /-- The length of a shared sequence, if it is known without drawing items. -/
  | length (s : Shared) (next : Option Nat → Producer)
  /-- Put a sequence into a new cell. -/
  | share (source : Producer) (next : Shared → Producer)
  /-- Draw items, numbered from `index` on, as long as the step wants more. -/
  | gather (step : Nat → List Value → Value → Gathering) (index : Nat) (kept : List Value)
      (source : Producer) (next : List Value → Producer)
  /-- For every item, numbered from `index` on, the items that it gives rise to; after the last one
  those that their number gives rise to. -/
  | forEach (index : Nat) (source : Producer) (body : Nat → Value → Producer)
      (finish : Nat → Producer)
  /-- Call a function and put its result into a new cell. -/
  | apply (f : Function) (call : CallContext) (arguments : List Producer)
      (next : Shared → Producer)
  | call (c : Call)
  /-- Report to the log. -/
  | log (label items : String) (rest : Producer)
  /-- Suspend once. -/
  | pause (rest : Producer)
  /-- Count one advance of a source. -/
  | tick (rest : Producer)

instance : Inhabited Producer := ⟨.done⟩

namespace Producer

/-- The listed items. -/
def ofList : List Value → Producer
  | [] => done
  | v :: vs => emit v (ofList vs)

def singleton (v : Value) : Producer := emit v done

/-- An error now, or the producer. -/
def ofExcept : Except Error Producer → Producer
  | .ok p => p
  | .error e => fail e

/-- A producer that is built when it is first advanced. -/
def deferred (build : Unit → Except Error Producer) : Producer :=
  append done fun u => ofExcept (build u)

/-- One producer after the other. -/
def concat : List Producer → Producer
  | [] => done
  | p :: ps => append p fun _ => concat ps

/-- A fresh reader of a shared sequence. -/
def reader : Shared → Producer
  | .listed items => ofList items
  | .cell id => call (.read id 0)

/-- Puts several producers into cells, in order. -/
def shareAll : List Producer → (List Shared → Producer) → Producer
  | [], next => next []
  | p :: ps, next => share p fun s => shareAll ps fun ss => next (s :: ss)

/-- Readers of array members, one after the other. -/
def readers (members : List Shared) : Producer := concat (members.map reader)

/-- All items, then the rest of the computation. -/
def drain (source : Producer) (next : List Value → Producer) : Producer :=
  gather (fun _ kept v => .more (v :: kept)) 0 [] source fun kept => next kept.reverse

/-- The first item, if any, without drawing a second one. -/
def first (source : Producer) (next : Option Value → Producer) : Producer :=
  gather (fun _ _ v => .enough [v]) 0 [] source fun kept => next kept.head?

/-- The first items of several producers, in order. -/
def firsts : List Producer → (List (Option Value) → Producer) → Producer
  | [], next => next []
  | p :: ps, next => first p fun v => firsts ps fun vs => next (v :: vs)

/-- Draws as much as the effective boolean value needs: one item if it is a node, else two. -/
def truthStep (kept : List Value) (v : Value) : Gathering :=
  if kept.isEmpty && !v.isNode then .more [v] else .enough (v :: kept)

/-- The effective boolean value, then the rest of the computation. -/
def truth (source : Producer) (next : Bool → Producer) : Producer :=
  gather (fun _ kept v => truthStep kept v) 0 [] source fun kept =>
    match truthOf kept.reverse with
    | .ok b => next b
    | .error e => fail e

/-- The items that every item gives rise to, one after the other. -/
def flatMap (source : Producer) (body : Value → Producer) : Producer :=
  forEach 0 source (fun _ v => body v) fun _ => done

/-- One item for every item. -/
def mapItems (source : Producer) (f : Value → Except Error Value) : Producer :=
  flatMap source fun v => match f v with
    | .ok w => singleton w
    | .error e => fail e

/-- Performs a task of asking the host. -/
def perform {α : Type} (access : Access) (t : Task α) (next : α → Producer) : Producer :=
  match t with
  | .pure a => next a
  | .fail e => fail e
  | .ask q k =>
    match access with
    | .live => ask q fun answer => perform access (k answer) next
    | .detached => fail Host.noDocument

/-- The items, with every array replaced by the items of its members, however deep. -/
def flatten (source : Producer) : Producer :=
  flatMap source fun
    | .array members => call (.leaves members)
    | v => singleton v

end Producer

end XPath
