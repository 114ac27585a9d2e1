import XPath.Lazy.Conjunction
import XPath.Lazy.Machine

/-!
# Atomizing one item step by step

The atomization of a single item can be resumed after a suspension, and also after it has answered:
a value can be taken once, the data of a leaf can be read again, and the text of a document or an
element has been handed out and is empty from then on.
-/

namespace XPath

inductive ItemAtomization where
  | value (a : Once Atomic)
  /-- Asking the host, and what to do once the answer is out. -/
  | asking (now afterwards : Producer)

namespace ItemAtomization

/-- Begins to atomize an item. -/
def start (v : Value) : Except Error ItemAtomization :=
  match v with
  | .atomic a => .ok (.value (.of a))
  | .node n =>
    let reading := Producer.perform .live n.typedValue fun a => .singleton (.atomic a)
    let spent := Producer.singleton (.atomic (.untyped ""))
    .ok (.asking reading (if n.kind.isParent then spent else reading))
  | .array _ => .error arrayAsItem
  | v => .error (noAtomicValue v)

/-- Makes an attempt. After an error the next attempt begins where this one did. -/
def resume (h : Host) (fuel : Nat) (i : ItemAtomization) (s : Session) :
    Attempt (Option Value) × ItemAtomization × Session :=
  match i with
  | .value a =>
    let (outcome, a) := a.take "atomized"
    (outcome.map fun a => some (.atomic a), .value a, s)
  | .asking now afterwards =>
    let t := now.next h fuel s
    match t.outcome with
    | .ready v => (.ready v, .asking afterwards afterwards, t.session)
    | .failed e => (.failed e, i, t.session)
    | outcome => (outcome, .asking t.rest afterwards, t.session)

end ItemAtomization

end XPath
