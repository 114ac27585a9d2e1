import XPath.Lazy.Convert

/-!
# Reading arguments

What the built-in functions share: the expected kind of a first item, and the context item in place
of an argument.
-/

namespace XPath

/-- A producer, or the error that a call raises at once. -/
abbrev Reply := Except Error Producer

def unexpected (expected : String) : Option Value → Error
  | some v => .typeError ("expected " ++ expected ++ ", got " ++ v.typeLabel)
  | none => .typeError ("expected " ++ expected ++ ", got an empty sequence")

def expectArray : Option Value → Except Error (List Shared)
  | some (.array members) => .ok members
  | v => .error (unexpected "array(*)" v)

def expectMap : Option Value → Except Error Entries
  | some (.map entries) => .ok entries
  | v => .error (unexpected "map(*)" v)

def expectAtomic : Option Value → Except Error Atomic
  | some (.atomic a) => .ok a
  | v => .error (unexpected "xs:anyAtomicType" v)

def Atomic.expectInteger (a : Atomic) : Except Error Int :=
  match a.scalar with
  | .integer i => .ok i
  | _ => .error (.typeError ("expected xs:integer, got " ++ a.type.label))

def expectInteger (v : Option Value) : Except Error Int := do (← expectAtomic v).expectInteger

def expectFunction : Option Value → Except Error Function
  | some v => v.callable
  | none => .error (unexpected "function(*)" none)

/-- A node, or nothing for no item. -/
def expectNode : Option Value → Except Error (Option Node)
  | none => .ok none
  | some (.node n) => .ok (some n)
  | v => .error (unexpected "node()" v)

def wrongArguments (got : Nat) : Error :=
  .unidentified ("a function received " ++ toString got ++ " arguments")

namespace CallContext

def contextItem (c : CallContext) (function : String) : Except Error Value :=
  match c.context.item with
  | some v => .ok v
  | none => .error (.missingContext function)

/-- The context item as an argument; it has to be a node. -/
def contextNode (c : CallContext) (function : String) : Reply := do
  let v ← c.contextItem function
  let _ ← expectNode (some v)
  return .singleton v

end CallContext

/-- The first items of the arguments, then the reply they lead to. -/
def withFirsts (arguments : List Producer) (next : List (Option Value) → Reply) : Producer :=
  .firsts arguments fun vs => .ofExcept (next vs)

/-- All items of an argument, then the reply they lead to. -/
def withAll (argument : Producer) (next : List Value → Reply) : Producer :=
  .drain argument fun vs => .ofExcept (next vs)

/-- Calls a function with several argument lists in turn, and goes on with the results. Every call
is begun before any result is read. -/
def applyAll (f : Function) (call : CallContext) : List (List Producer) → (List Shared → Producer) →
    Producer
  | [], next => next []
  | arguments :: rest, next =>
    .apply f call arguments fun s => applyAll f call rest fun ss => next (s :: ss)

end XPath
