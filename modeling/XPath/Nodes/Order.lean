import XPath.Host

/-!
# Document order

The key of a node is the list of sibling positions on the way from its root, together with the
number of its tree. Below a parent, attributes come before children, so an element precedes its
attributes and they precede its content; comparing keys lexicographically gives document order, and
the key of an ancestor begins the key of a descendant. Trees are numbered in the order in which
their roots are first seen.

Key computations share the lists of siblings that they have asked for. One turn of a computation asks
the host at most once, so it can be suspended between any two questions, and others can go on in the
meantime.
-/

namespace XPath

structure OrderKey where
  root : Nat
  path : List Nat
  deriving Repr, DecidableEq

namespace OrderKey

/-- Lexicographic order of sibling positions; a shorter path comes first. -/
def comparePaths : List Nat → List Nat → Ordering
  | [], [] => .eq
  | [], _ :: _ => .lt
  | _ :: _, [] => .gt
  | a :: as, b :: bs => if a < b then .lt else if b < a then .gt else comparePaths as bs

def compare (a b : OrderKey) : Ordering :=
  if a.root < b.root then .lt else if b.root < a.root then .gt else comparePaths a.path b.path

/-- The node of `a` is that of `b` or one of its ancestors. -/
def contains (a b : OrderKey) : Bool := a.root == b.root && a.path.isPrefixOf b.path

end OrderKey

/-- The roots of the trees seen so far. -/
abbrev Roots := List Node

namespace Node

/-- A node and its ancestors, the root first, as far up as `n` parents. -/
def chain : Nat → Node → List Node → Task (List Node)
  | 0, n, below => pure (n :: below)
  | fuel + 1, n, below => do
    match ← Task.parent n with
    | some p => chain fuel p (n :: below)
    | none => return n :: below

/-- A node and its ancestors, the root first. -/
def lineage (n : Node) : Task (List Node) := chain (n.path.length + 1) n []

end Node

/-! ## Computing keys -/

/-- The lists below a parent, as far as they have been asked for. -/
structure Siblings where
  attributes : Option (List Node)
  children : Option (List Node)

/-- What key computations share: the lists that they have asked for, and the roots of the trees of all
keys that are complete. -/
structure DocumentOrder where
  siblings : List (Node × Siblings)
  roots : Roots

namespace DocumentOrder

def start (roots : Roots) : DocumentOrder := ⟨[], roots⟩

def below (order : DocumentOrder) (parent : Node) : Siblings :=
  (order.siblings.lookup parent).getD ⟨none, none⟩

def note (order : DocumentOrder) (parent : Node) (found : Siblings) : DocumentOrder :=
  { order with siblings := (parent, found) :: order.siblings }

/-- The number of a tree; one that is new comes last. -/
def number (order : DocumentOrder) (root : Node) : Nat × DocumentOrder :=
  match order.roots.idxOf? root with
  | some i => (i, order)
  | none => (order.roots.length, { order with roots := order.roots ++ [root] })

end DocumentOrder

/-- How far the computation of a key has come. -/
structure KeyProgress where
  /-- The node and those above it as far as they are known, the topmost first. -/
  chain : List Node
  climbing : Bool
  /-- Sibling positions on the way down from the root. -/
  path : List Nat

namespace KeyProgress

def start (n : Node) : KeyProgress := ⟨[n], true, []⟩

/-- One parent more, or the root is reached. -/
def climb (progress : KeyProgress) : Option Node → KeyProgress
  | some parent => { progress with chain := parent :: progress.chain }
  | none => { progress with climbing := false }

def descend (progress : KeyProgress) (i : Nat) : KeyProgress :=
  { progress with path := progress.path ++ [i] }

end KeyProgress

/-- What the computation of a key comes to when it is resumed. -/
inductive KeyTurn where
  | ask (q : Query) (next : q.Answer → DocumentOrder × KeyProgress)
  | go (order : DocumentOrder) (progress : KeyProgress)
  | ready (key : OrderKey) (order : DocumentOrder)
  | fail (e : Error)

namespace KeyProgress

def noNode : Error := .unidentified "order key requested for no node"

def notBelow (parent child : Node) : Error :=
  .unidentified (child.kind.label ++ " is not listed below its parent " ++ parent.kind.label)

/-- Finds the position of a child among the attributes and children of its parent. -/
def place (order : DocumentOrder) (progress : KeyProgress) (parent child : Node) : KeyTurn :=
  let found := order.below parent
  match found.attributes with
  | none =>
    let noted (attributes : List Node) := order.note parent { found with attributes := some attributes }
    if parent.kind = .element then
      .ask (.attributes parent) fun attributes => (noted attributes, progress)
    else .go (noted []) progress
  | some attributes =>
    match attributes.idxOf? child with
    | some i => .go order (progress.descend i)
    | none =>
      match found.children with
      | none =>
        .ask (.children parent) fun children =>
          (order.note parent { found with children := some children }, progress)
      | some children =>
        match children.idxOf? child with
        | some i => .go order (progress.descend (attributes.length + i))
        | none => .fail (notBelow parent child)

/-- Climbs to the root, and then goes down again position by position. -/
def turn (order : DocumentOrder) (progress : KeyProgress) : KeyTurn :=
  match progress.chain.drop progress.path.length with
  | [] => .fail noNode
  | top :: below =>
    if progress.climbing then .ask (.parent top) fun parent => (order, progress.climb parent)
    else
      match below with
      | child :: _ => place order progress top child
      | [] =>
        let (i, order) := order.number (progress.chain.headD top)
        .ready ⟨i, progress.path⟩ order

def noEnd (n : Node) : Error := .unidentified (n.kind.label ++ " has too many ancestors")

/-- Takes turns until the key is complete. -/
def finish (n : Node) : Nat → DocumentOrder → KeyProgress → Task (OrderKey × DocumentOrder)
  | 0, _, _ => .fail (noEnd n)
  | turns + 1, order, progress =>
    match progress.turn order with
    | .ask q next => .ask q fun answer => finish n turns (next answer).1 (next answer).2
    | .go order progress => finish n turns order progress
    | .ready key order => pure (key, order)
    | .fail e => .fail e

end KeyProgress

namespace Node

/-- The key of a node. It takes at most four turns for each of the ancestors that its path counts. -/
def orderKey (order : DocumentOrder) (n : Node) : Task (OrderKey × DocumentOrder) :=
  (KeyProgress.start n).finish n (4 * n.path.length + 2) order

/-- The keys of several nodes, computed in turn. -/
def keysFrom (order : DocumentOrder) : List Node → Task (List (OrderKey × Node))
  | [] => pure []
  | n :: ns => do
    let (key, order) ← orderKey order n
    return (key, n) :: (← keysFrom order ns)

/-- The keys of several nodes when trees are numbered on from the given roots. -/
def orderKeys (roots : Roots) (nodes : List Node) : Task (List (OrderKey × Node)) :=
  keysFrom (.start roots) nodes

/-- Drops every element whose key is that of its left neighbour. -/
def dropRepeated : List (OrderKey × Node) → List (OrderKey × Node)
  | (k, n) :: (k', n') :: rest =>
    if k = k' then dropRepeated ((k, n) :: rest)
    else (k, n) :: dropRepeated ((k', n') :: rest)
  | short => short
termination_by nodes => nodes.length

/-- The distinct nodes in document order, with their keys. -/
def sortWithKeys (nodes : List Node) : Task (List (OrderKey × Node)) := do
  let keyed ← orderKeys [] nodes
  return dropRepeated (keyed.mergeSort fun a b => a.1.compare b.1 != .gt)

/-- The distinct nodes in document order. -/
def sort (nodes : List Node) : Task (List Node) := do return (← sortWithKeys nodes).map (·.2)

/-! ## Nesting -/

/-- The nodes, given in document order, with no other listed node but attributes below them. -/
def innermost : List (OrderKey × Node) → List Node
  | [] => []
  | (key, n) :: rest =>
    let below := rest.takeWhile fun (k, _) => key.contains k
    if below.any fun (_, m) => m.kind != .attribute then innermost rest else n :: innermost rest

/-- The nodes, given in document order, that lie below none of the others; `outer` is the last one
kept. -/
def outermost (outer : Option OrderKey) : List (OrderKey × Node) → List Node
  | [] => []
  | (key, n) :: rest =>
    if (outer.map (·.contains key)).getD false then outermost outer rest
    else n :: outermost (some key) rest

end Node

end XPath
