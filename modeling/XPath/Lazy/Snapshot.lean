import XPath.Lazy.Machine

/-!
# Snapshots

A value with everything that it shares read to the end, so that it can be shown and compared without
a session. A member that cannot be read is replaced by its error.
-/

namespace XPath

inductive Snapshot where
  | atomic (a : Atomic)
  | node (n : Node)
  | map (entries : List (Atomic × Except Error (List Snapshot)))
  | array (members : List (Except Error (List Snapshot)))
  | function (f : Function)

namespace Snapshot

variable {α β : Type}

/-- Takes every element in turn, handing on the session. -/
def eachOf (take : α → Session → Option (β × Session)) :
    List α → Session → Option (List β × Session)
  | [], s => some ([], s)
  | a :: rest, s => do
    let (b, s) ← take a s
    let (bs, s) ← eachOf take rest s
    return (b :: bs, s)

/-- The items of a producer, or the error that ends it, given how an item is taken. -/
def drained (h : Host) (fuel : Nat) (take : Value → Session → Option (Snapshot × Session))
    (p : Producer) (s : Session) : Option (Except Error (List Snapshot) × Session) := do
  match ← p.materialize h fuel [] s with
  | (.error e, s) => return (.error e, s)
  | (.ok items, s) =>
    let (taken, s) ← eachOf take items s
    return (.ok taken, s)

/-- The entry of a map, given how a shared sequence is taken. -/
def entry (take : Shared → Session → Option (Except Error (List Snapshot) × Session)) :
    Atomic × Shared → Session → Option ((Atomic × Except Error (List Snapshot)) × Session)
  | (key, shared), s => do
    let (items, s) ← take shared s
    return ((key, items), s)

/-- Reads a value to the end; none if the fuel does not suffice. -/
def ofValue (h : Host) : Nat → Value → Session → Option (Snapshot × Session)
  | 0, _, _ => none
  | fuel + 1, v, s =>
    let member shared := drained h fuel (ofValue h fuel) (Producer.reader shared)
    match v with
    | .atomic a => some (atomic a, s)
    | .node n => some (node n, s)
    | .function f => some (function f, s)
    | .array members => do
      let (taken, s) ← eachOf member members s
      return (array taken, s)
    | .map entries => do
      let (taken, s) ← eachOf (entry member) entries s
      return (map taken, s)

/-- Reads several values to the end. -/
def ofValues (h : Host) (fuel : Nat) : List Value → Session → Option (List Snapshot × Session) :=
  eachOf (ofValue h fuel)

end Snapshot

end XPath
