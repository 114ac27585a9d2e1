import XPath.Expr.Meaning
import XPath.Nodes.Order

/-!
# Paths

A path evaluates its steps one after the other, each once for every node that the step before gave.
The results of a step are united without duplicates and put into document order, unless their order
is known already: with a single origin, or with origins of which none lies below another and a step
that stays below its origin. `needsSort` says when that is.
-/

namespace XPath

open Producer

namespace Meaning

def stepOnItem : Error := ⟨.XPTY0019, "the / operator can only be applied to nodes"⟩

def mixedResult : Error :=
  ⟨.XPTY0018,
    "the path operator should either return nodes or non-nodes, mixed sequences are not allowed"⟩

/-- The results so far, newest first, with those of one more origin; a node is taken once. -/
def collect (results : List Value) (items : List Value) : List Value :=
  items.foldl (fun results v =>
    match v with
    | .node n => if results.any (·.isSameNode n) then results else v :: results
    | _ => v :: results) results

/-- Evaluates a step in the context of every origin. The results are handed on in the order in which
they were met. -/
def fromOrigins (step : Operand) (access : Access) (results : List Value) :
    List (Except Error Context) → (List Value → Producer) → Producer
  | [], next => next results.reverse
  | .error e :: _, _ => fail e
  | .ok c :: rest, next =>
    drain (deferred fun _ => step.meaning c access) fun items =>
      let ordered := if step.traits.order = .reverse then items.reverse else items
      fromOrigins step access (collect results ordered) rest next

/-- The contexts in which a step is evaluated on the results of the step before. -/
def origins (c : Context) (inputs : List Value) : List (Except Error Context) :=
  inputs.map fun v => if v.isNode then .ok (c.focusedOn v) else .error stepOnItem

/-- Whether the results of a step may come in another order than document order. -/
def needsSort (step : Traits) (originCount : Nat) (peers : Bool) : Bool :=
  step.order = .unsorted || !(originCount ≤ 1 || (peers && step.subtree))

/-- Whether no result of a step lies below another one. -/
def keepsPeers (step : Traits) (originCount : Nat) (peers : Bool) : Bool :=
  step.peer && (originCount ≤ 1 || (peers && step.subtree))

/-- Puts the results of a step into document order where that is needed. -/
def arrange (step : Traits) (access : Access) (originCount : Nat) (peers : Bool)
    (results : List Value) (next : List Value → Producer) : Producer :=
  if results.any Value.isNode then
    if results.any (!·.isNode) then fail mixedResult
    else if needsSort step originCount peers && 1 < results.length then
      perform access (Node.sort (results.filterMap Value.node?)) fun sorted =>
        next (sorted.map .node)
    else next results
  else next results

/-- Takes the remaining steps, the next one from the given origins. -/
def steps (c : Context) (access : Access) (peers : Bool) :
    List Operand → List Value → List (Except Error Context) → Producer
  | [], inputs, _ => ofList inputs
  | step :: rest, _, contexts =>
    fromOrigins step access [] contexts fun results =>
      arrange step.traits access contexts.length peers results fun results =>
        steps c access (keepsPeers step.traits contexts.length peers) rest results
          (origins c results)

/-- The first step is evaluated once, in the focus of the path itself. -/
def path (operands : List Operand) : Meaning := fun c access =>
  .ok (steps c access true operands [] [.ok c])

end Meaning

end XPath
