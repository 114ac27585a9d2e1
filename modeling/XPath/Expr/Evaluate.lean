import XPath.Expr.Construct
import XPath.Expr.Filter
import XPath.Expr.Path

/-!
# Evaluation

The meaning of an expression follows from its operator and the meanings of its operands, unless a
value was cached at preparation: that value then stands for the expression in every context.
-/

namespace XPath

/-- The cached value if there is one. -/
def Notes.recall (notes : Notes) (m : Meaning) : Meaning :=
  match notes.cached? with
  | some items => fun _ _ => .ok (Producer.ofList items)
  | none => m

def BinaryOperator.meaning (op : BinaryOperator) (left right : Operand) : Meaning :=
  match op with
  | .arithmetic op => Meaning.arithmetic op left.meaning right.meaning
  | .comparison op => Meaning.comparison op left.meaning right.meaning
  | .filter => Meaning.filter left right

def NaryOperator.meaning (static? : Option StaticContext) (op : NaryOperator)
    (operands : List Operand) : Meaning :=
  let meanings := operands.map (·.meaning)
  match op with
  | .sequence => Meaning.sequence meanings
  | .or => Meaning.or meanings
  | .and => Meaning.and meanings
  | .path => Meaning.path operands
  | .squareArray => Meaning.squareArray meanings
  | .curlyArray => Meaning.curlyArray meanings
  | .map => Meaning.map meanings
  | .call slots => Meaning.call static? slots meanings

namespace Expr

mutual

def evaluate : Expr → Meaning
  | leaf op notes => notes.recall (op.meaning notes.static?)
  | signed sign notes e => notes.recall (Meaning.signed sign e.evaluate)
  | binary op notes l r => notes.recall (op.meaning ⟨l.traits, l.evaluate⟩ ⟨r.traits, r.evaluate⟩)
  | nary op notes es => notes.recall (op.meaning notes.static? (operandsOf es))

def operandsOf : List Expr → List Operand
  | [] => []
  | e :: es => ⟨e.traits, e.evaluate⟩ :: operandsOf es

end

/-! ## Preparation -/

/-- Notes the static context of a node whose operands are prepared. A constant is evaluated, without
any context, and cached; if that fails it is left to be evaluated when it is needed, and an attempt
that is given up leaves no trace. -/
def prepareNode (static : StaticContext) (fuel : Nat) (e : Expr) (s : Session) : Expr × Session :=
  let notes := { e.notes with static? := e.notes.static?.or (some static) }
  let e := e.withNotes notes
  if e.traits.constant && notes.cached?.isNone then
    match e.evaluate .empty .detached with
    | .ok p =>
      match p.collect .absent fuel [] s with
      | (.ready items, s) => (e.withNotes { notes with cached? := some items }, s)
      | (.failed _, s) => (e, s)
      | _ => (e, s)
    | .error _ => (e, s)
  else (e, s)

mutual

/-- Prepares the operands and then the node itself. A static context noted before stays. -/
def prepare (static : StaticContext) (fuel : Nat) : Expr → Session → Expr × Session
  | leaf op notes, s => prepareNode static fuel (leaf op notes) s
  | signed sign notes e, s =>
    let (e, s) := prepare static fuel e s
    prepareNode static fuel (signed sign notes e) s
  | binary op notes l r, s =>
    let (l, s) := prepare static fuel l s
    let (r, s) := prepare static fuel r s
    prepareNode static fuel (binary op notes l r) s
  | nary op notes es, s =>
    let (es, s) := prepareAll static fuel es s
    prepareNode static fuel (nary op notes es) s

def prepareAll (static : StaticContext) (fuel : Nat) : List Expr → Session → List Expr × Session
  | [], s => ([], s)
  | e :: es, s =>
    let (e, s) := prepare static fuel e s
    let (es, s) := prepareAll static fuel es s
    (e :: es, s)

end

end Expr

end XPath
