import XPath.Lazy.Producer

/-!
# Axes and node tests

The nodes on an axis, produced one by one in axis order: document order for the forward axes, and
its reverse for ancestors and preceding siblings. Only the part of the tree that is needed for the
next node is asked of the host.
-/

namespace XPath

inductive Axis where
  | self | child | attribute | parent | descendant | descendantOrSelf | ancestor | ancestorOrSelf
  | followingSibling | precedingSibling
  deriving Repr, DecidableEq

namespace Axis

def all : List Axis :=
  [.self, .child, .attribute, .parent, .descendant, .descendantOrSelf, .ancestor, .ancestorOrSelf,
    .followingSibling, .precedingSibling]

def label : Axis → String
  | .self => "self"
  | .child => "child"
  | .attribute => "attribute"
  | .parent => "parent"
  | .descendant => "descendant"
  | .descendantOrSelf => "descendant-or-self"
  | .ancestor => "ancestor"
  | .ancestorOrSelf => "ancestor-or-self"
  | .followingSibling => "following-sibling"
  | .precedingSibling => "preceding-sibling"

def ofLabel? (text : String) : Option Axis := all.find? (·.label == text)

/-- The axis runs against document order. -/
def isReverse : Axis → Bool
  | .ancestor | .ancestorOrSelf | .precedingSibling => true
  | _ => false

/-- The kind of node that a name test selects. -/
def principalKind : Axis → NodeKind
  | .attribute => .attribute
  | _ => .element

/-- No node on the axis lies below another one. -/
def isPeer : Axis → Bool
  | .self | .child | .attribute | .parent | .followingSibling | .precedingSibling => true
  | _ => false

/-- Every node on the axis lies in the subtree of its origin. -/
def isSubtree : Axis → Bool
  | .self | .child | .attribute | .descendant | .descendantOrSelf => true
  | _ => false

end Axis

inductive NodeTest where
  | name (name : ExpandedName)
  /-- Parts that are not given match anything. -/
  | wildcard (uri localName : Option String)
  | kind (kind : NodeKind)
  | anyKind
  deriving Repr, DecidableEq

namespace NodeTest

private def agrees (expected : Option String) (actual : Option String) : Bool :=
  match expected with
  | some e => actual == some e
  | none => true

/-- Whether a node passes; name tests look at nodes of the principal kind only. -/
def admits (test : NodeTest) (principal : NodeKind) (n : Node) : Bool :=
  match test with
  | anyKind => true
  | kind k => n.kind = k
  | name expected =>
    n.kind = principal && (n.name.map (·.expanded)) == some expected
  | wildcard uri localName =>
    n.kind = principal &&
      match n.name with
      | some q => agrees uri q.uri && agrees localName (some q.localName)
      | none => false

end NodeTest

namespace Axis

/-- Asks the host, if there is access to it. -/
def query (access : Access) (q : Query) (next : q.Answer → Producer) : Producer :=
  match access with
  | .live => .ask q next
  | .detached => .fail Host.noDocument

/-- The nodes of a list that pass a test, then the rest. -/
def emitAll (keep : Node → Bool) (nodes : List Node) (rest : Producer) : Producer :=
  nodes.foldr (fun n rest => if keep n then .emit (.node n) rest else rest) rest

/-- The nodes below `n`, each before its own descendants; at most `fuel` levels of them. -/
def below (access : Access) (keep : Node → Bool) : Nat → Node → (Unit → Producer) → Producer
  | 0, _, rest => rest ()
  | fuel + 1, n, rest =>
    if n.kind.isParent then
      query access (.children n) fun children =>
        children.foldr
          (fun c rest _ =>
            if keep c then .emit (.node c) (below access keep fuel c rest)
            else below access keep fuel c rest)
          rest ()
    else rest ()

/-- The ancestors, the nearest first; at most `fuel` of them. -/
def above (access : Access) (keep : Node → Bool) : Nat → Node → Producer
  | 0, _ => .done
  | fuel + 1, n =>
    query access (.parent n) fun
      | some p => if keep p then .emit (.node p) (above access keep fuel p)
        else above access keep fuel p
      | none => .done

def notListed (n : Node) : Error :=
  .unidentified (n.kind.label ++ " is not listed below its parent")

/-- The siblings after a node, or before it with the nearest first. -/
def siblings (access : Access) (keep : Node → Bool) (following : Bool) (n : Node) : Producer :=
  if n.kind = .attribute then .done
  else query access (.parent n) fun
    | none => .done
    | some p => query access (.children p) fun children =>
      match children.idxOf? n with
      | none => .fail (notListed n)
      | some i =>
        let selected := if following then children.drop (i + 1) else (children.take i).reverse
        emitAll keep selected .done

/-- The nodes on an axis from `n` that pass a test. -/
def walk (axis : Axis) (access : Access) (test : NodeTest) (n : Node) : Producer :=
  let keep := test.admits axis.principalKind
  match axis with
  | .self => emitAll keep [n] .done
  | .child =>
    if n.kind.isParent then
      query access (.children n) fun children => emitAll keep children .done
    else .done
  | .attribute =>
    if n.kind = .element then
      query access (.attributes n) fun attributes =>
        emitAll keep (attributes.filter (!·.isNamespaceDeclaration)) .done
    else .done
  | .parent => query access (.parent n) fun p => emitAll keep p.toList .done
  | .descendant => below access keep n.height n fun _ => .done
  | .descendantOrSelf => emitAll keep [n] (below access keep n.height n fun _ => .done)
  | .ancestor => above access keep (n.path.length + 1) n
  | .ancestorOrSelf => emitAll keep [n] (above access keep (n.path.length + 1) n)
  | .followingSibling => siblings access keep true n
  | .precedingSibling => siblings access keep false n

end Axis

end XPath
