import XPath.Error
import XPath.Tree

/-!
# Asking the host

Everything about the structure of a tree is asked of a host, which may answer late. A query is about
one node; a task is a computation that asks queries and goes on with the answers. `Task.run` is what
a task computes when every answer comes at once, and `Task.run_bind` says that it follows the tasks
in order. What it means that an answer is late is left to the machine that performs the task.
-/

namespace XPath

/-- The questions that a host answers. -/
inductive Operation where
  | children | parent | attribute | attributes | data
  deriving Repr, DecidableEq

namespace Operation

def all : List Operation := [.children, .parent, .attribute, .attributes, .data]

def label : Operation → String
  | .children => "children"
  | .parent => "parent"
  | .attribute => "attribute"
  | .attributes => "attributes"
  | .data => "data"

def ofLabel? (text : String) : Option Operation := all.find? (·.label == text)

end Operation

inductive Query where
  | children (node : Node)
  | parent (node : Node)
  /-- The value of the attribute with a written name. -/
  | attribute (node : Node) (name : String)
  | attributes (node : Node)
  | data (node : Node)
  deriving Repr, DecidableEq

namespace Query

/-- What a query is answered with. -/
abbrev Answer : Query → Type
  | children _ => List Node
  | parent _ => Option Node
  | .attribute _ _ => Option String
  | attributes _ => List Node
  | data _ => String

def operation : Query → Operation
  | children _ => .children
  | parent _ => .parent
  | .attribute _ _ => .attribute
  | attributes _ => .attributes
  | data _ => .data

def node : Query → Node
  | children n | parent n | .attribute n _ | attributes n | data n => n

/-- The answer of a host that sees nothing. -/
def nothing : (q : Query) → q.Answer
  | children _ => []
  | parent _ => none
  | .attribute _ _ => none
  | attributes _ => []
  | data _ => ""

end Query

/-- What a suspension waits for: an operation on a node, whatever attribute it names. -/
structure Topic where
  operation : Operation
  node : Node
  deriving Repr, DecidableEq

def Query.topic (q : Query) : Topic := ⟨q.operation, q.node⟩

/-- The answers of a host, and how many times it suspends before it answers a query. That may depend
on all the queries that it has answered before, the last one first. -/
structure Host where
  answer : (q : Query) → Except Error q.Answer
  delay : List Query → Query → Nat

namespace Host

/-- Answers about a forest at once. -/
def ofForest (f : Forest) : Host where
  answer
    | .children n => .ok (f.children n)
    | .parent n => .ok (f.parent? n)
    | .attribute n name => .ok (f.attributeValue? n name)
    | .attributes n => .ok (f.attributes n)
    | .data n => .ok (f.data n)
  delay _ _ := 0

/-- Suspends once on every topic. -/
def deferred (h : Host) : Host :=
  { h with delay := fun answered q => if answered.any (·.topic == q.topic) then 0 else 1 }

/-- Gives empty answers on some operations, at once. -/
def concealing (h : Host) (hidden : List Operation) : Host where
  answer q := if hidden.contains q.operation then .ok q.nothing else h.answer q
  delay answered q := if hidden.contains q.operation then 0 else h.delay answered q

/-- Fails on some operations, at once. -/
def failing (h : Host) (failure : Operation → Option Error) : Host where
  answer q := match failure q.operation with
    | some e => .error e
    | none => h.answer q
  delay answered q := if (failure q.operation).isSome then 0 else h.delay answered q

/-- The error of every question while there is no document. -/
def noDocument : Error := ⟨.XPDY0002, "no document available during static evaluation"⟩

/-- A host without any document. -/
def absent : Host where
  answer _ := .error noDocument
  delay _ _ := 0

end Host

/-- A computation that asks the host. -/
inductive Task (α : Type) where
  | pure (value : α)
  | fail (e : Error)
  | ask (q : Query) (next : q.Answer → Task α)

namespace Task

variable {α β : Type}

protected def bind : Task α → (α → Task β) → Task β
  | pure a, f => f a
  | fail e, _ => fail e
  | ask q next, f => ask q fun answer => (next answer).bind f

instance : Monad Task where
  pure := Task.pure
  bind := Task.bind

/-- The result with every answer at hand. -/
def run (h : Host) : Task α → Except Error α
  | pure a => .ok a
  | fail e => .error e
  | ask q next =>
    match h.answer q with
    | .ok answer => (next answer).run h
    | .error e => .error e

theorem run_bind (h : Host) (t : Task α) (f : α → Task β) :
    (t.bind f).run h = (t.run h).bind fun a => (f a).run h := by
  induction t with
  | pure a => rfl
  | fail e => rfl
  | ask q next ih =>
    simp only [Task.bind, run]
    cases h.answer q with
    | ok answer => exact ih answer
    | error e => rfl

def children (n : Node) : Task (List Node) := ask (.children n) pure
def parent (n : Node) : Task (Option Node) := ask (.parent n) pure
def attributeValue (n : Node) (name : String) : Task (Option String) := ask (.attribute n name) pure
def attributes (n : Node) : Task (List Node) := ask (.attributes n) pure
def data (n : Node) : Task String := ask (.data n) pure

/-- Runs a step for every element, in order, handing on a state. -/
def foldl (step : β → α → Task β) (state : β) : List α → Task β
  | [] => pure state
  | a :: rest => (step state a).bind fun state => foldl step state rest

end Task

end XPath
