import XPath.Lazy.Producer

/-!
# Sessions

What pulling items leaves behind: the cells of shared sequences, the topics that have been waited
for, and counts and reports. A question that the host is not ready to answer suspends; it can be
asked again once the suspension has been waited for.
-/

namespace XPath

/-- One attempt at a computation. -/
inductive Attempt (α : Type) where
  | ready (a : α)
  /-- Suspended; a suspension without a topic is over at once. -/
  | pending (topic : Option Topic)
  | failed (e : Error)
  /-- Given up for want of fuel. -/
  | exhausted

namespace Attempt

variable {α β : Type}

def map (f : α → β) : Attempt α → Attempt β
  | ready a => ready (f a)
  | pending t => pending t
  | failed e => failed e
  | exhausted => exhausted

def ofExcept : Except Error α → Attempt α
  | .ok a => ready a
  | .error e => failed e

end Attempt

/-- A sequence that is computed when it is read, once for all readers. Without a source there is
nothing left to compute. -/
structure Cell where
  items : Array Value
  source : Option Producer
  error : Option Error

/-- What a shared sequence has at an index. -/
inductive Lookup where
  | item (v : Value)
  | finish
  | failed (e : Error)
  /-- Not computed yet. -/
  | unread (cell : Nat) (source : Producer)

structure Session where
  cells : Array Cell
  /-- The queries that the host has answered, the last one first. -/
  answered : List Query
  /-- Topics waited for since the host last answered on them, once for every time. -/
  awaited : List Topic
  /-- The number of suspensions handed out by the host. -/
  suspensions : Nat
  /-- The number of counted advances of sources. -/
  pulls : Nat
  /-- Labels and items reported, in order. -/
  log : Array (String × String)

namespace Session

def empty : Session := ⟨#[], [], [], 0, 0, #[]⟩

/-- Waits for a suspension. -/
def await (s : Session) (topic : Option Topic) : Session :=
  { s with awaited := topic.toList ++ s.awaited }

/-- How often the host still suspends before it answers a query. -/
def remaining (s : Session) (h : Host) (q : Query) : Nat :=
  h.delay s.answered q - s.awaited.count q.topic

/-- Takes note of an answer; what was waited for is used up. -/
def receive (s : Session) (q : Query) : Session :=
  { s with answered := q :: s.answered, awaited := s.awaited.filter (· ≠ q.topic) }

/-- Asks the host once. -/
def ask (s : Session) (h : Host) (q : Query) : Attempt q.Answer × Session :=
  if 0 < s.remaining h q then
    (.pending (some q.topic), { s with suspensions := s.suspensions + 1 })
  else (.ofExcept (h.answer q), s.receive q)

def tick (s : Session) : Session := { s with pulls := s.pulls + 1 }

def report (s : Session) (label items : String) : Session :=
  { s with log := s.log.push (label, items) }

/-! ## Cells -/

/-- Puts a sequence into a new cell. -/
def allocate (s : Session) (source : Producer) : Shared × Session :=
  (.cell s.cells.size, { s with cells := s.cells.push ⟨#[], some source, none⟩ })

/-- What is known of a shared sequence at an index; the items of a cell come before its error. -/
def look (s : Session) (shared : Shared) (index : Nat) : Lookup :=
  match shared with
  | .listed items =>
    match items[index]? with
    | some v => .item v
    | none => .finish
  | .cell id =>
    match s.cells[id]? with
    | none => .finish
    | some c =>
      match c.items[index]?, c.error, c.source with
      | some v, _, _ => .item v
      | none, some e, _ => .failed e
      | none, none, some source => .unread id source
      | none, none, none => .finish

/-- The number of items of a shared sequence of which nothing is left to compute. -/
def length? (s : Session) : Shared → Option Nat
  | .listed items => some items.length
  | .cell id =>
    match s.cells[id]? with
    | some ⟨items, none, _⟩ => some items.size
    | some _ => none
    | none => some 0

private def update (s : Session) (id : Nat) (f : Cell → Cell) : Session :=
  { s with cells := s.cells.modify id f }

/-- Takes the source out of a cell. -/
def detach (s : Session) (id : Nat) : Session := s.update id ({ · with source := none })

/-- Puts the source back into a cell. -/
def attach (s : Session) (id : Nat) (source : Producer) : Session :=
  s.update id ({ · with source := some source })

/-- Adds the next item of a cell and puts the source back. -/
def keep (s : Session) (id : Nat) (v : Value) (source : Producer) : Session :=
  s.update id fun c => { c with items := c.items.push v, source := some source }

/-- Keeps the error that ended a cell. -/
def spoil (s : Session) (id : Nat) (e : Error) : Session := s.update id ({ · with error := some e })

end Session

/-! ## Tasks -/

namespace Task

/-- The result of a task, waiting whenever the host is late. -/
def complete {α : Type} (h : Host) : Task α → Session → Except Error α × Session
  | pure a, s => (.ok a, s)
  | fail e, s => (.error e, s)
  | ask q next, s =>
    let s := { s with suspensions := s.suspensions + s.remaining h q }.receive q
    match h.answer q with
    | .ok answer => (next answer).complete h s
    | .error e => (.error e, s)

end Task

end XPath
