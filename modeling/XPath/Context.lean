import XPath.Value

/-!
# Contexts

A static context holds namespace bindings and the functions that names refer to. A dynamic context
holds the focus (an item, its position and the sequence it is taken from) and variables in nested
scopes; a new scope never changes the ones around it. `Context.lookup_withVariables` says which
binding a variable has under a new scope.
-/

namespace XPath

/-- Functions by name and arity; no two entries agree on both. -/
structure Registry where
  entries : List (ExpandedName × Nat × Function)

namespace Registry

def empty : Registry := ⟨[]⟩

def lookup (r : Registry) (name : ExpandedName) (arity : Nat) : Option Function :=
  (r.entries.find? fun (n, a, _) => n == name && a == arity).map (·.2.2)

/-- Adds a function in place of one with the same name and arity. -/
def add (r : Registry) (name : ExpandedName) (f : Function) : Registry :=
  let arity := f.arity
  ⟨(name, arity, f) :: r.entries.filter fun (n, a, _) => !(n == name && a == arity)⟩

def size (r : Registry) : Nat := r.entries.length

/-- The built-in functions. -/
def standard : Registry :=
  ⟨Builtin.all.filterMap fun f => f.signature.name.map fun name =>
    (name, f.signature.arity, .builtin f)⟩

end Registry

structure StaticContext where
  namespaces : Namespaces
  functions : Registry

namespace StaticContext

/-- The namespace of unqualified function names. -/
def defaultFunctionNamespace : String := Uri.functions

/-- The standard namespaces and the built-in functions. -/
def standard : StaticContext := ⟨.standard, .standard⟩

end StaticContext

/-- Variables of one scope. -/
abbrev Bindings := List (ExpandedName × Shared)

structure Context where
  item : Option Value
  /-- The place of the context item in its sequence, from one on. -/
  position : Nat
  sequence : Option Shared
  /-- Variables, the innermost scope first. -/
  scopes : List Bindings

namespace Context

/-- Nothing in focus and no variables. -/
def empty : Context := ⟨none, 0, none, [[]]⟩

/-- An outermost context; a given item is alone in its sequence. -/
def initial (item : Option Value) (bound : Bindings) : Context :=
  ⟨item, if item.isSome then 1 else 0, item.map fun v => .listed [v], [bound]⟩

/-- A scope focused on one item of a sequence. -/
def withFocus (c : Context) (position : Nat) (item : Value) (sequence : Shared) : Context :=
  ⟨some item, position, some sequence, [] :: c.scopes⟩

/-- A scope focused on an item alone. -/
def focusedOn (c : Context) (item : Value) : Context := c.withFocus 1 item (.listed [item])

/-- A scope with further variables. -/
def withVariables (c : Context) (bound : Bindings) : Context :=
  { c with scopes := bound :: c.scopes }

/-- The number of scopes around this one. -/
def depth (c : Context) : Nat := c.scopes.length - 1

/-- The innermost binding of a variable. -/
def lookup (c : Context) (name : ExpandedName) : Option Shared :=
  c.scopes.findSome? (·.lookup name)

theorem lookup_withVariables (c : Context) (bound : Bindings) (name : ExpandedName) :
    (c.withVariables bound).lookup name = (bound.lookup name).or (c.lookup name) := by
  simp only [lookup, withVariables, List.findSome?_cons]
  cases bound.lookup name <;> rfl

end Context

/-- Whether the host may be asked. Without access every question fails. -/
inductive Access where
  | live | detached
  deriving Repr, DecidableEq

/-- What a function may consult apart from its arguments. -/
structure CallContext where
  context : Context
  access : Access
  namespaces : Namespaces

end XPath
