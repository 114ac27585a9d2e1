import XPath.Atomic.Compare
import XPath.Nodes.Content

/-!
# Deep equality of nodes

Documents are equal when their contents are; elements when their names, attributes and contents are.
Content means the element and text children, and attributes are compared without namespace
declarations and in the order of their written names. Other nodes are equal when their names and
typed values are; a text and a comment are compared like two of a kind.
-/

namespace XPath.Node

/-- Children that count for equality. -/
def content (children : List Node) : List Node :=
  children.filter fun c => c.kind = .element || c.kind = .text

/-- The name as written, empty if there is none. -/
def writtenName (n : Node) : String :=
  match n.name with
  | some q => q.label
  | none => ""

/-- Attributes that count for equality, sorted by their written names. -/
def significantAttributes (attributes : List Node) : List Node :=
  (attributes.filter (!·.isNamespaceDeclaration)).mergeSort fun a b =>
    !(b.writtenName < a.writtenName : Bool)

/-- Leaves that are compared by name and typed value. -/
def areComparableLeaves (a b : NodeKind) : Bool :=
  match a, b with
  | .attribute, .attribute | .processingInstruction, .processingInstruction => true
  | .text, .text | .text, .comment | .comment, .text | .comment, .comment => true
  | _, _ => false

/-- All pairs of two lists are equal by `same`, and the lists are equally long. -/
def pairwise (same : Node → Node → Task Bool) : List Node → List Node → Task Bool
  | [], [] => pure true
  | a :: as, b :: bs => do
    if ← same a b then pairwise same as bs else return false
  | _, _ => pure false

/-- Compares lists of equal length; others differ without a look at their nodes. -/
def listsEqual (same : Node → Node → Task Bool) (as bs : List Node) : Task Bool :=
  if as.length = bs.length then pairwise same as bs else pure false

/-- Equality of nodes of at most the given height. -/
def equalWithin : Nat → Node → Node → Task Bool
  | 0, _, _ => pure false
  | fuel + 1, a, b => do
    let contentEqual : Task Bool := do
      let left ← Task.children a
      let right ← Task.children b
      listsEqual (equalWithin fuel) (content left) (content right)
    if a.kind = .document ∧ b.kind = .document then contentEqual
    else if a.kind = .element ∧ b.kind = .element then
      if !a.sameName b then return false
      let left ← Task.attributes a
      let right ← Task.attributes b
      if ← listsEqual (equalWithin fuel) (significantAttributes left)
          (significantAttributes right) then
        contentEqual
      else return false
    else if areComparableLeaves a.kind b.kind then
      if !a.sameName b then return false
      let left ← typedValue a
      let right ← typedValue b
      return left.deepEqual right
    else return false

/-- Deep equality of two nodes. -/
def deepEqual (a b : Node) : Task Bool := equalWithin (a.height + 1) a b

end XPath.Node
