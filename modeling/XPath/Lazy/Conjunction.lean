import XPath.Lazy.Session

/-!
# Conjunctions of resumable parts

A conjunction asks its parts in order, each created only when its turn comes. The first part that
says no decides it; a suspended part is resumed where it stands. A decided conjunction has no parts
left to ask, so resumed once more it says yes.
-/

namespace XPath

/-- A part that is refused when it is to be created, or what it says each time it is resumed. -/
inductive Part where
  | refused (e : Error)
  | created (answers : Nat → Attempt Bool)

structure Conjunction where
  /-- The parts not decided yet. -/
  remaining : List Part
  /-- How often the first of them has been resumed, if it has been created. -/
  resumed : Option Nat
  /-- The number of attempts so far to create a part. -/
  creations : Nat

namespace Conjunction

def ofParts (parts : List Part) : Conjunction := ⟨parts, none, 0⟩

/-- Asks the remaining parts from the first one on. -/
def run : List Part → Option Nat → Nat → Attempt Bool × Conjunction
  | [], _, creations => (.ready true, ⟨[], none, creations⟩)
  | part :: rest, resumed, creations =>
    let creations := if resumed.isSome then creations else creations + 1
    match part with
    | .refused e => (.failed e, ⟨part :: rest, none, creations⟩)
    | .created answers =>
      let times := resumed.getD 0
      match answers times with
      | .ready true => run rest none creations
      | .ready false => (.ready false, ⟨[], none, creations⟩)
      | other => (other, ⟨part :: rest, some (times + 1), creations⟩)

def resume (c : Conjunction) : Attempt Bool × Conjunction := run c.remaining c.resumed c.creations

end Conjunction

/-- A value that can be taken once. -/
structure Once (α : Type) where
  value : Option α

namespace Once

variable {α : Type}

def of (a : α) : Once α := ⟨some a⟩

def takenTwice (what : String) : Error := .unidentified (what ++ " value taken twice")

def take (o : Once α) (what : String) : Attempt α × Once α :=
  match o.value with
  | some a => (.ready a, ⟨none⟩)
  | none => (.failed (takenTwice what), o)

/-- Takes a value that was known from the start. -/
def resume (o : Once α) : Attempt α × Once α := o.take "resolved"

end Once

end XPath
