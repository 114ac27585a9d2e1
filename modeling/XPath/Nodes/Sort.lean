import XPath.Lazy.Producer
import XPath.Nodes.Order

/-!
# Sorting node values

A list of values, all of which have to be nodes, put into document order without duplicates.
-/

namespace XPath

def notANode (v : Value) : Error := .typeError ("expected a node, got " ++ v.typeLabel)

/-- The nodes of a list of values, or the error for the first that is none. -/
def nodesOf : List Value → Except Error (List Node)
  | [] => .ok []
  | .node n :: rest => do return n :: (← nodesOf rest)
  | v :: _ => .error (notANode v)

/-- The values in document order. -/
def sortedNodes (access : Access) (values : List Value) : Producer :=
  match nodesOf values with
  | .ok nodes => .perform access (Node.sort nodes) fun sorted => .ofList (sorted.map .node)
  | .error e => .fail e

end XPath
