import XPath.Lazy.Producer
import XPath.Nodes.Content

/-!
# Atomization

Every item becomes its atomic value: atomic values stay, nodes give their typed value, and arrays
are replaced by the atomized items of their members. Maps and functions have no atomic value.
-/

namespace XPath

def noAtomicValue (v : Value) : Error :=
  ⟨.FOTY0013, "atomization is not defined for " ++ v.typeLabel⟩

def arrayAsItem : Error :=
  .typeError "an array cannot be atomized as a single item; atomize its members instead"

/-- The atomic value of one item that is not an array. -/
def Value.atomized (v : Value) : Task Atomic :=
  match v with
  | .atomic a => pure a
  | .node n => n.typedValue
  | .array _ => .fail arrayAsItem
  | v => .fail (noAtomicValue v)

/-- The atomic values of all items. -/
def Producer.atomize (access : Access) (source : Producer) : Producer :=
  flatMap (flatten source) fun v =>
    perform access v.atomized fun a => singleton (.atomic a)

end XPath
