import XPath.Lazy.Machine

/-!
# Sequences

A sequence is a producer with a buffer of items drawn ahead of time. Peeking fills the buffer and
consumes nothing, so it does not change what `next` delivers later; a suspension leaves what was
drawn in the buffer. An error ends the source, but not what is buffered already.
-/

namespace XPath

structure Sequence where
  /-- Items drawn but not delivered. -/
  buffer : List Value
  /-- Nothing once the end or an error has been met. -/
  source : Option Producer

inductive Cardinality where
  | empty | one | many
  deriving Repr, DecidableEq

def Cardinality.ofLength : Nat → Cardinality
  | 0 => empty
  | 1 => one
  | _ => many

def Cardinality.label : Cardinality → String
  | empty => "Empty"
  | one => "One"
  | many => "Many"

namespace Sequence

def ofProducer (p : Producer) : Sequence := ⟨[], some p⟩

/-- What an operation on a sequence leaves. -/
abbrev Result (α : Type) := Attempt α × Sequence × Session

/-- Draws from the source, past the buffer. -/
def pull (h : Host) (fuel : Nat) (q : Sequence) (s : Session) : Result (Option Value) :=
  match q.source with
  | none => (.ready none, q, s)
  | some p =>
    let t := p.next h fuel s
    match t.outcome with
    | .ready none | .failed _ => (t.outcome, { q with source := none }, t.session)
    | _ => (t.outcome, { q with source := some t.rest }, t.session)

/-- The next item, none at the end. -/
def next (h : Host) (fuel : Nat) (q : Sequence) (s : Session) : Result (Option Value) :=
  match q.buffer with
  | v :: rest => (.ready (some v), { q with buffer := rest }, s)
  | [] => q.pull h fuel s

/-- Buffers items, up to a limit if there is one. -/
def fill (h : Host) (limit : Option Nat) : Nat → Sequence → Session → Result Unit
  | 0, q, s => (.exhausted, q, s)
  | fuel + 1, q, s =>
    if limit.any (· ≤ q.buffer.length) then (.ready (), q, s)
    else
      match q.pull h fuel s with
      | (.ready (some v), q, s) => fill h limit fuel { q with buffer := q.buffer ++ [v] } s
      | (.ready none, q, s) => (.ready (), q, s)
      | (.failed e, q, s) => (.failed e, q, s)
      | (.pending t, q, s) => (.pending t, q, s)
      | (.exhausted, q, s) => (.exhausted, q, s)

/-- Fills the buffer and answers from it. -/
def peek {α : Type} (h : Host) (fuel limit : Nat) (answer : List Value → Attempt α) (q : Sequence)
    (s : Session) : Result α :=
  match q.fill h (some limit) fuel s with
  | (.ready (), q, s) => (answer q.buffer, q, s)
  | (.failed e, q, s) => (.failed e, q, s)
  | (.pending t, q, s) => (.pending t, q, s)
  | (.exhausted, q, s) => (.exhausted, q, s)

/-- The first undelivered item, if any. -/
def first (h : Host) (fuel : Nat) (q : Sequence) (s : Session) : Result (Option Value) :=
  q.peek h fuel 1 (fun buffer => .ready buffer.head?) s

/-- Whether nothing, one item or more is undelivered. -/
def cardinality (h : Host) (fuel : Nat) (q : Sequence) (s : Session) : Result Cardinality :=
  q.peek h fuel 2 (fun buffer => .ready (.ofLength buffer.length)) s

/-- The effective boolean value of the undelivered items; a node at their head decides it. -/
def truth (h : Host) (fuel : Nat) (q : Sequence) (s : Session) : Result Bool :=
  match q.first h fuel s with
  | (.ready none, q, s) => (.ready false, q, s)
  | (.ready (some (.node _)), q, s) => (.ready true, q, s)
  | (.ready (some _), q, s) => q.peek h fuel 2 (fun buffer => .ofExcept (truthOf buffer)) s
  | (.failed e, q, s) => (.failed e, q, s)
  | (.pending t, q, s) => (.pending t, q, s)
  | (.exhausted, q, s) => (.exhausted, q, s)

/-- Delivers all items at once. -/
def drain (h : Host) (fuel : Nat) (q : Sequence) (s : Session) : Result (List Value) :=
  match q.fill h none fuel s with
  | (.ready (), q, s) => (.ready q.buffer, { q with buffer := [] }, s)
  | (.failed e, q, s) => (.failed e, q, s)
  | (.pending t, q, s) => (.pending t, q, s)
  | (.exhausted, q, s) => (.exhausted, q, s)

end Sequence

namespace Shared

/-- The item at an index, none past the end. -/
def fetch (h : Host) (fuel : Nat) (shared : Shared) (index : Nat) (s : Session) :
    Attempt (Option Value) × Session :=
  let t := (Producer.fetch shared index fun
    | some v => .singleton v
    | none => .done).next h fuel s
  (t.outcome, t.session)

/-- All items. -/
def items (h : Host) (fuel : Nat) (shared : Shared) (s : Session) :
    Attempt (List Value) × Session :=
  (Producer.reader shared).collect h fuel [] s

end Shared

end XPath
