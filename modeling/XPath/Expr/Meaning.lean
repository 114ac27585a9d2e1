import XPath.Expr.Basic

/-!
# What operators mean

The meaning of an expression under a context is a producer, or an error that is raised before any
item is asked for. Here are the leaves, the sequence operator, the logical operators, and arithmetic
and comparison of atomized operands. Operands that need not be looked at are not evaluated.
-/

namespace XPath

open Producer

/-- What an expression evaluates to. -/
abbrev Meaning := Context → Access → Reply

/-- What an operator sees of an operand. -/
structure Operand where
  traits : Traits
  meaning : Meaning

/-! ## Leaves -/

def notPrepared : Error := .unidentified "expression evaluated before it was prepared"

namespace Leaf

def unbound (name : ExpandedName) : Error :=
  ⟨.XPST0008, "variable $" ++ name.label ++ " is not bound"⟩

def undefined (name : ExpandedName) (arity : Nat) : Error :=
  ⟨.XPST0017, "function " ++ name.label ++ "#" ++ toString arity ++ " is not defined"⟩

def noNodeForAxis (axis : Axis) (v : Value) : Error :=
  .typeError ("the " ++ axis.label ++ " axis can only be applied to nodes, got " ++ v.typeLabel)

def meaning (static? : Option StaticContext) : Leaf → Meaning
  | literal v, _, _ => .ok (singleton v)
  | contextItem, c, _ =>
    match c.item with
    | some v => .ok (singleton v)
    | none => .error (.missingContext "the context item expression")
  | variableRef name, c, _ =>
    match c.lookup name with
    | some s => .ok (reader s)
    | none => .error (unbound name)
  | step axis test, c, access =>
    match c.item with
    | some (.node n) => .ok (axis.walk access test n)
    | some v => .error (noNodeForAxis axis v)
    | none => .error (.missingContext ("the " ++ axis.label ++ " axis"))
  | functionRef name arity, _, _ =>
    match static? with
    | none => .error notPrepared
    | some static =>
      match static.functions.lookup name arity with
      | some f => .ok (singleton (.function f))
      | none => .error (undefined name arity)

end Leaf

namespace Meaning

/-! ## Sequences and logic -/

/-- The items of all operands; each is evaluated once the one before is exhausted. -/
def sequence (operands : List Meaning) : Meaning := fun c access =>
  .ok (concat (operands.map fun m => deferred fun _ => m c access))

/-- The boolean values of operands in order, up to one that decides. -/
def firstDeciding (deciding : Bool) (c : Context) (access : Access) : List Meaning → Producer
  | [] => singleton (.boolean !deciding)
  | m :: ms => truth (deferred fun _ => m c access) fun b =>
    if b = deciding then singleton (.boolean deciding) else firstDeciding deciding c access ms

def or (operands : List Meaning) : Meaning := fun c access =>
  .ok (firstDeciding true c access operands)

def and (operands : List Meaning) : Meaning := fun c access =>
  .ok (firstDeciding false c access operands)

/-! ## Atomized operands -/

/-- The value of an operand that is to be one atomic value or nothing. -/
def soleOperand (operator : String) : List Value → Except Error (Option Atomic)
  | [] => .ok none
  | [.atomic a] => .ok (some a)
  | [_] => .error (.typeError ("the operand of " ++ operator ++ " did not atomize"))
  | items => .error (.typeError ("the operands of the " ++ operator ++
      " operator must be xs:anyAtomicType?, got a sequence of " ++ toString items.length ++
      " items"))

def signed (sign : Atomic.Sign) (operand : Meaning) : Meaning := fun c access => do
  let items ← operand c access
  return withAll (atomize access items) fun items => do
    match ← soleOperand "unary" items with
    | some a => return singleton (.atomic (← a.applySign sign))
    | none => return done

/-- Without a left operand the right one is not evaluated. -/
def arithmetic (op : Atomic.Operator) (left right : Meaning) : Meaning := fun c access => do
  let items ← left c access
  return withAll (atomize access items) fun items => do
    match ← soleOperand op.label items with
    | none => return done
    | some a =>
      let a ← a.numericOperand op
      let items ← right c access
      return withAll (atomize access items) fun items => do
        match ← soleOperand op.label items with
        | none => return done
        | some b => return singleton (.atomic (← a.arithmetic op (← b.numericOperand op)))

def comparison (op : Atomic.Relation) (left right : Meaning) : Meaning := fun c access => do
  let items ← left c access
  return withAll (atomize access items) fun leftItems => do
    let items ← right c access
    return withAll (atomize access items) fun rightItems => do
      let related ← Atomic.generalCompare op (leftItems.filterMap Value.atomic?)
        (rightItems.filterMap Value.atomic?)
      return singleton (.boolean related)

end Meaning

end XPath
