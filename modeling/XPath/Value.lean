import XPath.Atomic.Compare
import XPath.Library.Catalogue
import XPath.Tree

/-!
# Values

An item is an atomic value, a node, a map, an array or a function. Members of arrays and values of
maps are sequences that several readers may share: either the items are listed, or they are kept in
a cell of the machine and computed when first read. Functions are plain data, so values can be
compared and stored without running anything.
-/

namespace XPath

mutual

/-- One item of a sequence. -/
inductive Value where
  | atomic (a : Atomic)
  | node (n : Node)
  /-- Entries in the order of insertion. -/
  | map (entries : List (Atomic × Shared))
  | array (members : List Shared)
  | function (f : Function)

/-- A sequence that can be read any number of times. -/
inductive Shared where
  | listed (items : List Value)
  | cell (id : Nat)

/-- A function item. -/
inductive Function where
  | builtin (f : Builtin)
  | extension (f : Extension)
  /-- A function with some arguments bound; the open slots are its parameters. -/
  | bound (f : Function) (slots : List (Option Shared))
  /-- Look-up of a key. -/
  | entryOf (entries : List (Atomic × Shared))
  /-- Look-up of a position. -/
  | memberOf (members : List Shared)

end

instance : Inhabited Value := ⟨.atomic default⟩

namespace Value

def itemType : Value → ItemType
  | atomic a => a.type
  | node n => n.kind.itemType
  | map _ => .map
  | array _ => .array
  | function _ => .function

def typeLabel (v : Value) : String := v.itemType.label

def isNode : Value → Bool
  | node _ => true
  | _ => false

def node? : Value → Option Node
  | node n => some n
  | _ => none

def isSameNode (v : Value) (n : Node) : Bool :=
  match v with
  | node m => m == n
  | _ => false

def atomic? : Value → Option Atomic
  | atomic a => some a
  | _ => none

def boolean (b : Bool) : Value := .atomic (.boolean b)
def integer (i : Int) : Value := .atomic (.integer i)
def string (s : String) : Value := .atomic (.string s)

end Value

/-! ## Maps -/

/-- Entries of a map. -/
abbrev Entries := List (Atomic × Shared)

namespace Entries

/-- The value of the first entry whose key is the given one. -/
def get? (entries : Entries) (key : Atomic) : Option Shared :=
  (entries.find? fun (k, _) => k.sameKey key).map (·.2)

def contains (entries : Entries) (key : Atomic) : Bool := (entries.get? key).isSome

def duplicateKey (key : Atomic) : Error := ⟨.XQDY0137, "duplicate map key " ++ key.text⟩

/-- Checks that no key occurs twice; `seen` are the keys of the entries before. -/
def check (seen : List Atomic) : Entries → Except Error Unit
  | [] => .ok ()
  | (key, _) :: rest =>
    if seen.any (·.sameKey key) then .error (duplicateKey key) else check (seen ++ [key]) rest

end Entries

/-- A map with the given entries, unless a key occurs twice. -/
def Value.mapOf (entries : Entries) : Except Error Value := do
  entries.check []
  return .map entries

/-! ## Arrays -/

/-- An array with one member per item. -/
def Value.arrayOfItems (items : List Value) : Value := .array (items.map fun v => .listed [v])

/-! ## Functions -/

namespace Function

/-- The parameters at the open slots. -/
def openParameters : List (Option Shared) → List SequenceType → List SequenceType
  | none :: slots, t :: ts => t :: openParameters slots ts
  | some _ :: slots, _ :: ts => openParameters slots ts
  | _, _ => []

def signature : Function → Signature
  | builtin f => f.signature
  | extension f => f.signature
  | bound f slots =>
    let s := f.signature
    ⟨none, openParameters slots s.parameters, s.result⟩
  | entryOf _ => ⟨none, [⟨.known .anyAtomicType, .exactlyOne⟩], .anything⟩
  | memberOf _ => ⟨none, [⟨.known .integer, .exactlyOne⟩], .anything⟩

def arity (f : Function) : Nat := f.signature.arity

def label (f : Function) : String := f.signature.label

end Function

/-- The function for anything that can be called: functions themselves, maps and arrays. -/
def Value.callable : Value → Except Error Function
  | .function f => .ok f
  | .map entries => .ok (.entryOf entries)
  | .array members => .ok (.memberOf members)
  | v => .error (.typeError
      ("expected base expression to evaluate to a function item, got " ++ v.typeLabel))

/-! ## Effective boolean value -/

def noBoolean (type : ItemType) : Error :=
  ⟨.FORG0006, "effective boolean value is not defined for " ++ type.label⟩

/-- The effective boolean value of one item. -/
def Value.truth (v : Value) : Except Error Bool :=
  match v with
  | .node _ => .ok true
  | .atomic a =>
    match a.scalar with
    | .boolean b => .ok b
    | .string s =>
      if a.isInstanceOf .string || a.isInstanceOf .untypedAtomic || a.isInstanceOf .anyUri then
        .ok (s ≠ "")
      else .error (noBoolean a.type)
    | .integer i => .ok (i ≠ 0)
    | .decimal d => .ok !d.isZero
    | .double d => .ok (!d.isZero && !d.isNaN)
    | .float f => .ok (!f.isZero && !f.isNaN)
    | _ => .error (noBoolean a.type)
  | v => .error (noBoolean v.itemType)

def manyItems : Error :=
  ⟨.FORG0006, "effective boolean value is not defined for a sequence of two or more items " ++
    "starting with a non-node"⟩

/-- The effective boolean value of a sequence: an empty one is false, one headed by a node is true,
and a single item has its own. -/
def truthOf : List Value → Except Error Bool
  | [] => .ok false
  | .node _ :: _ => .ok true
  | [v] => v.truth
  | _ => .error manyItems

end XPath
