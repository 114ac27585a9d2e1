import XPath.Atomic.Basic
import XPath.Host

/-!
# Content of nodes

The typed value of a node, asked of the host piece by piece. Walks downwards are bounded by the
height that a node carries.
-/

namespace XPath.Node

/-- The text below a node, in document order, for nodes of at most the given height. -/
def textContent : Nat → Node → Task String
  | fuel, n =>
    match n.kind with
    | .text => Task.data n
    | .document | .element =>
      match fuel with
      | 0 => pure ""
      | fuel + 1 => do
        let children ← Task.children n
        Task.foldl (fun text child => do return text ++ (← textContent fuel child)) "" children
    | _ => pure ""

/-- The typed value: a string for comments and processing instructions, else untyped. -/
def typedValue (n : Node) : Task Atomic :=
  match n.kind with
  | .document | .element => return .untyped (← textContent n.height n)
  | .comment | .processingInstruction => return .string (← Task.data n)
  | _ => return .untyped (← Task.data n)

end XPath.Node
