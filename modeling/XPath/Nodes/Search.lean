import XPath.Library.Catalogue
import XPath.Nodes.Order
import XPath.Text.Blank

/-!
# Searching a tree by identifier

The whole tree of a node is visited, children before their parent, and one attribute of every
element is looked at. Among nested elements with the same identifier the innermost one comes first
and is the one found. Results are put into document order by the number a node got on the way down.
-/

namespace XPath

/-- The attribute that is looked at. -/
def IdLookup.attributeName : IdLookup → String
  | .id => "id"
  | .idref => "idref"

/-- The words of a string. -/
def wordsOf (s : String) : List String := (Text.words s.toList).map String.ofList

structure IdSearch where
  /-- Values not found yet. -/
  wanted : List String
  /-- The number of nodes visited. -/
  visited : Nat
  /-- Elements found, with their numbers. -/
  found : List (Nat × Node)

namespace IdSearch

/-- Takes note of an element with the given value of the attribute. -/
def consider (lookup : IdLookup) (s : IdSearch) (number : Nat) (n : Node) (value : String) :
    IdSearch :=
  match lookup with
  | .id =>
    if s.wanted.contains value then
      { s with wanted := s.wanted.filter (· != value), found := s.found ++ [(number, n)] }
    else s
  | .idref =>
    if (wordsOf value).any s.wanted.contains then { s with found := s.found ++ [(number, n)] }
    else s

/-- Visits a subtree of less than the given height, unless nothing is wanted any more. -/
def visit (lookup : IdLookup) : Nat → IdSearch → Node → Task IdSearch
  | 0, s, _ => pure s
  | fuel + 1, s, n => do
    if s.wanted.isEmpty then return s
    let children ← Task.children n
    let number := s.visited
    let s ← Task.foldl (visit lookup fuel) { s with visited := s.visited + 1 } children
    if s.wanted.isEmpty then return s
    if n.kind != .element then return s
    match ← Task.attributeValue n lookup.attributeName with
    | some value => return s.consider lookup number n value
    | none => return s

/-- The elements found from the root of a node's tree, in document order. -/
def run (lookup : IdLookup) (wanted : List String) (start : Node) : Task (List Node) := do
  let root := (← start.lineage).headD start
  let s ← visit lookup (root.height + 1) ⟨wanted.eraseDups, 0, []⟩ root
  return (s.found.mergeSort fun a b => a.1 ≤ b.1).map (·.2)

end IdSearch

end XPath
