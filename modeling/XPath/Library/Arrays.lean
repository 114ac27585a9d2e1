import XPath.Library.Arguments

/-!
# Array functions

Members have positions from one on. Every function gives a new array and leaves its argument as it
is. Sorting compares atomized members item by item; it is stable, and the first comparison that
fails decides.
-/

namespace XPath

namespace Members

def outOfBounds (position : Int) (size : Nat) : Error :=
  ⟨.FOAY0001, "array position " ++ Text.intText position ++
    " is out of bounds for an array of size " ++ toString size⟩

/-- The index of a position that must hold a member. -/
def index (position : Int) (size : Nat) : Except Error Nat :=
  if 1 ≤ position ∧ position ≤ size then .ok (position - 1).toNat
  else .error (outOfBounds position size)

/-- The member at a position. -/
def get (members : List Shared) (position : Int) : Except Error Shared := do
  let i ← index position members.length
  match members[i]? with
  | some m => return m
  | none => throw (outOfBounds position members.length)

def put (members : List Shared) (position : Int) (member : Shared) :
    Except Error (List Shared) := do
  return members.set (← index position members.length) member

def insertBefore (members : List Shared) (position : Int) (member : Shared) :
    Except Error (List Shared) :=
  if 1 ≤ position ∧ position ≤ members.length + 1 then
    let i := (position - 1).toNat
    .ok (members.take i ++ member :: members.drop i)
  else .error (outOfBounds position members.length)

/-- Drops the members at the given positions. -/
def remove (members : List Shared) (positions : List Int) : Except Error (List Shared) := do
  let indexes ← positions.mapM fun p => index p members.length
  return (members.zipIdx.filter fun (_, i) => !indexes.contains i).map (·.1)

def negativeLength (length : Int) : Error :=
  ⟨.FOAY0002, "array length " ++ Text.intText length ++ " is negative"⟩

def tooLong (start length : Int) (size : Nat) : Error :=
  ⟨.FOAY0001, "subarray of length " ++ Text.intText length ++ " from position " ++
    Text.intText start ++ " exceeds an array of size " ++ toString size⟩

/-- `length` members from a position on. -/
def subarray (members : List Shared) (start length : Int) : Except Error (List Shared) :=
  let size := members.length
  if ¬(1 ≤ start ∧ start ≤ size + 1) then .error (outOfBounds start size)
  else if length < 0 then .error (negativeLength length)
  else if start + length ≤ size + 1 then
    .ok ((members.drop (start - 1).toNat).take length.toNat)
  else .error (tooLong start length size)

/-- The members from a position on. -/
def subarrayFrom (members : List Shared) (start : Int) : Except Error (List Shared) :=
  subarray members start (max 0 (members.length - start + 1))

/-! ## Sorting -/

/-- Lexicographic order of atomized members; pairs without an order count as equal. -/
def compareKeys : List Atomic → List Atomic → Except Error Ordering
  | [], [] => .ok .eq
  | [], _ :: _ => .ok .lt
  | _ :: _, [] => .ok .gt
  | a :: as, b :: bs => do
    match ← a.compare b false with
    | some .lt => return .lt
    | some .gt => return .gt
    | _ => compareKeys as bs

/-- A member with its atomized items. -/
abbrev Keyed := List Atomic × Shared

/-- Moves a member left past those it is less than; the sorted members are given last first. A
comparison that fails counts as equal, and the first failure is kept. -/
def insertSorted (x : Keyed) (failure : Option Error) : List Keyed → Option Error × List Keyed
  | [] => (failure, [x])
  | y :: before =>
    match compareKeys x.1 y.1 with
    | .ok .lt =>
      let (failure, sorted) := insertSorted x failure before
      (failure, y :: sorted)
    | .ok _ => (failure, x :: y :: before)
    | .error e => (failure.or (some e), x :: y :: before)

/-- Inserts members one after the other; the sorted members are given last first. -/
def sortInto (failure : Option Error) (sorted : List Keyed) : List Keyed →
    Option Error × List Keyed
  | [] => (failure, sorted)
  | x :: rest =>
    let (failure, sorted) := insertSorted x failure sorted
    sortInto failure sorted rest

/-- The members in the order of their atomized items. -/
def sort (keyed : List Keyed) : Except Error (List Shared) :=
  match sortInto none [] keyed with
  | (some e, _) => .error e
  | (none, sorted) => .ok (sorted.reverse.map (·.2))

/-- Atomizes members one after the other. -/
def withKeys (access : Access) : List Shared → (List Keyed → Producer) → Producer
  | [], next => next []
  | m :: rest, next =>
    .drain (.atomize access (.reader m)) fun items =>
      withKeys access rest fun keyed => next ((items.filterMap Value.atomic?, m) :: keyed)

/-! ## Higher-order functions -/

/-- The effective boolean values of several sequences, in turn. -/
def truths : List Shared → (List Bool → Producer) → Producer
  | [], next => next []
  | s :: rest, next => .truth (.reader s) fun b => truths rest fun bs => next (b :: bs)

/-- The members for which a function gives true. -/
def filter (members : List Shared) (f : Function) (call : CallContext) : Producer :=
  applyAll f call (members.map fun m => [.reader m]) fun results =>
    truths results fun verdicts =>
      .singleton (.array (((members.zip verdicts).filter (·.2)).map (·.1)))

/-- Folds from the first member on. -/
def foldLeft (f : Function) (call : CallContext) (zero : Producer) : List Shared → Producer
  | [] => zero
  | m :: rest => .apply f call [zero, .reader m] fun s => foldLeft f call (.reader s) rest

/-- Folds over members given last first. -/
def foldRight (f : Function) (call : CallContext) (zero : Producer) : List Shared → Producer
  | [] => zero
  | m :: rest => .apply f call [.reader m, zero] fun s => foldRight f call (.reader s) rest

end Members

/-- A reply with one array. -/
def Reply.array (members : List Shared) : Reply := .ok (.singleton (.array members))

end XPath
