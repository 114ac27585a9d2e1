import XPath.Atomic.Arithmetic
import XPath.Expr.Specificity
import XPath.Lazy.Machine
import XPath.Nodes.Axis

/-!
# Expressions

Expression trees by shape: leaves, signed operands, binary operators, and operators on any number of
operands. Every node keeps notes that preparation fills in. The traits of a node follow from its
operator and the traits of its operands alone; they say what may be skipped when nodes are put into
document order, and what can be evaluated ahead of time.
-/

namespace XPath

inductive Leaf where
  | literal (v : Value)
  | contextItem
  | variableRef (name : ExpandedName)
  | step (axis : Axis) (test : NodeTest)
  /-- A named function as an item. -/
  | functionRef (name : ExpandedName) (arity : Nat)

inductive BinaryOperator where
  | arithmetic (op : Atomic.Operator)
  | comparison (op : Atomic.Relation)
  /-- The items of the left operand for which the right one holds. -/
  | filter
  deriving Repr, DecidableEq

inductive NaryOperator where
  | sequence | or | and | path
  /-- An array with one member per operand. -/
  | squareArray
  /-- An array with one member per item of the first operand. -/
  | curlyArray
  /-- Operands are keys and values by turns. -/
  | map
  /-- A call of the first operand; a slot is true if an argument is supplied for it. -/
  | call (slots : List Bool)
  deriving Repr, DecidableEq

/-- What preparation leaves at a node. -/
structure Notes where
  static? : Option StaticContext
  /-- The value of a constant. -/
  cached? : Option (List Value)

def Notes.blank : Notes := ⟨none, none⟩

inductive Expr where
  | leaf (op : Leaf) (notes : Notes)
  | signed (sign : Atomic.Sign) (notes : Notes) (operand : Expr)
  | binary (op : BinaryOperator) (notes : Notes) (left right : Expr)
  | nary (op : NaryOperator) (notes : Notes) (operands : List Expr)

/-! ## Traits -/

/-- The order in which an expression gives nodes. -/
inductive ResultOrder where
  | sorted | reverse | unsorted
  deriving Repr, DecidableEq

def ResultOrder.label : ResultOrder → String
  | sorted => "sorted"
  | reverse => "reverse"
  | unsorted => "unsorted"

structure Traits where
  specificity : Specificity
  bucket : Option Bucket
  /-- The value depends on no context. -/
  constant : Bool
  order : ResultOrder
  /-- No node of a result lies below another one. -/
  peer : Bool
  /-- All nodes of a result lie in the subtree of the context node. -/
  subtree : Bool
  deriving Repr, DecidableEq

namespace Traits

/-- Nodes in document order, with nothing else known. -/
def plain : Traits := ⟨.none, none, false, .sorted, false, false⟩

end Traits

namespace NodeTest

def specificityClass : NodeTest → SpecificityClass
  | name _ => .nodeName
  | wildcard _ _ | kind _ => .nodeType
  | anyKind => .universal

/-- The nodes that can pass when the principal kind is given. -/
def bucket (principal : NodeKind) : NodeTest → Option Bucket
  | name n => some (if principal = .element then .localName n.localName else .kind principal)
  | wildcard _ _ => some (.kind principal)
  | kind k => some (.kind k)
  | anyKind => none

end NodeTest

namespace Leaf

/-- A step constrains the context node only along its own axis. -/
def traits : Leaf → Traits
  | literal _ | functionRef _ _ => { Traits.plain with constant := true }
  | contextItem => { Traits.plain with peer := true }
  | variableRef _ => { Traits.plain with order := .unsorted }
  | step axis test =>
    let looked := Specificity.one test.specificityClass
    { specificity := if axis = .attribute then looked.add (.one .attribute) else looked
      bucket := if axis = .self then test.bucket axis.principalKind else none
      constant := false
      order := if axis.isReverse then .reverse else .sorted
      peer := axis.isPeer
      subtree := axis.isSubtree }

end Leaf

namespace BinaryOperator

def traits (op : BinaryOperator) (left right : Traits) : Traits :=
  let both : Traits :=
    { Traits.plain with
      specificity := left.specificity.add right.specificity
      constant := left.constant && right.constant }
  match op with
  | arithmetic _ | comparison _ => { both with order := .unsorted }
  | filter =>
    { both with
      bucket := left.bucket
      order := left.order
      peer := left.peer
      subtree := left.subtree }

end BinaryOperator

namespace NaryOperator

/-- The bucket that all operands share. -/
def commonBucket : List Traits → Option Bucket
  | [] => none
  | t :: ts => if ts.all (·.bucket == t.bucket) then t.bucket else none

/-- Steps keep nodes apart as long as each keeps them apart and stays below its origin. -/
def isPeerPath : List Traits → Bool
  | [] => true
  | t :: ts => ts.foldl (fun peer t => t.peer && peer && t.subtree) t.peer

def traits (op : NaryOperator) (operands : List Traits) : Traits :=
  let specificity := Specificity.sum (operands.map (·.specificity))
  let constant := operands.all (·.constant)
  let constructor : Traits :=
    { Traits.plain with
      specificity := .one .external
      constant := constant
      order := .unsorted }
  match op with
  | sequence =>
    { Traits.plain with specificity := specificity, constant := constant, order := .unsorted }
  | or =>
    { Traits.plain with
      specificity := .highest (operands.map (·.specificity))
      bucket := commonBucket operands
      constant := constant }
  | and =>
    { Traits.plain with
      specificity := specificity
      bucket := operands.findSome? (·.bucket)
      constant := constant }
  | path =>
    { specificity := specificity
      bucket := operands.head?.bind (·.bucket)
      constant := false
      order := .sorted
      peer := isPeerPath operands
      subtree := operands.all (·.subtree) }
  | squareArray | curlyArray | map => constructor
  | call _ => { constructor with constant := false }

end NaryOperator

namespace Expr

def notes : Expr → Notes
  | leaf _ n | signed _ n _ | binary _ n _ _ | nary _ n _ => n

def withNotes (n : Notes) : Expr → Expr
  | leaf op _ => leaf op n
  | signed sign _ e => signed sign n e
  | binary op _ l r => binary op n l r
  | nary op _ es => nary op n es

def children : Expr → List Expr
  | leaf _ _ => []
  | signed _ _ e => [e]
  | binary _ _ l r => [l, r]
  | nary _ _ es => es

mutual

def traits : Expr → Traits
  | leaf op _ => op.traits
  | signed _ _ e => { Traits.plain with specificity := e.traits.specificity, order := .unsorted }
  | binary op _ l r => op.traits l.traits r.traits
  | nary op _ es => op.traits (traitsOf es)

def traitsOf : List Expr → List Traits
  | [] => []
  | e :: es => e.traits :: traitsOf es

end

/-! ## Building trees -/

def literal (v : Value) : Expr := leaf (.literal v) .blank
def contextItem : Expr := leaf .contextItem .blank
def variableRef (name : ExpandedName) : Expr := leaf (.variableRef name) .blank
def step (axis : Axis) (test : NodeTest) : Expr := leaf (.step axis test) .blank
def functionRef (name : ExpandedName) (arity : Nat) : Expr := leaf (.functionRef name arity) .blank
def sign (s : Atomic.Sign) (operand : Expr) : Expr := signed s .blank operand

def arithmetic (op : Atomic.Operator) (left right : Expr) : Expr :=
  binary (.arithmetic op) .blank left right

def comparison (op : Atomic.Relation) (left right : Expr) : Expr :=
  binary (.comparison op) .blank left right

def filter (selector predicate : Expr) : Expr := binary .filter .blank selector predicate

/-- An operator on any number of operands. -/
def operator (op : NaryOperator) (operands : List Expr) : Expr := nary op .blank operands

/-- A map with the given keys and values. -/
def map (entries : List (Expr × Expr)) : Expr :=
  operator .map (entries.flatMap fun (k, v) => [k, v])

/-- A call; arguments that are not given become the parameters of a new function. -/
def call (function : Expr) (arguments : List (Option Expr)) : Expr :=
  operator (.call (arguments.map (·.isSome))) (function :: arguments.filterMap fun a => a)

/-- A call of a named function. -/
def callNamed (name : ExpandedName) (arguments : List Expr) : Expr :=
  call (functionRef name arguments.length) (arguments.map some)

end Expr

end XPath
