import XPath.Name
import XPath.Types

/-!
# Trees and nodes

A tree is a document, an element, or a leaf. A node is a place in one of several trees: the number
of its tree and the steps back to the root, the nearest first. It also carries what can be said of
it without looking at the tree, its kind and name, and the height of the subtree below it, which
bounds every walk downwards. `Forest.children_height` says that children are lower than their
parent.
-/

namespace XPath

inductive NodeKind where
  | document | element | attribute | text | comment | processingInstruction
  deriving Repr, DecidableEq

namespace NodeKind

def itemType : NodeKind → ItemType
  | .document => .document
  | .element => .element
  | .attribute => .attribute
  | .text => .text
  | .comment => .comment
  | .processingInstruction => .processingInstruction

/-- The name of the kind test. -/
def label (k : NodeKind) : String := k.itemType.label

def all : List NodeKind :=
  [.document, .element, .attribute, .text, .comment, .processingInstruction]

def ofLabel? (text : String) : Option NodeKind := all.find? (·.label == text)

/-- Documents and elements have children. -/
def isParent : NodeKind → Bool
  | .document | .element => true
  | _ => false

end NodeKind

inductive Tree where
  | document (children : List Tree)
  | element (name : QName) (attributes : List (QName × String)) (children : List Tree)
  | attribute (name : QName) (value : String)
  | text (data : String)
  | comment (data : String)
  | instruction (target : String) (data : String)
  deriving Repr

/-- The name that a tag or attribute states. Without a namespace of its own only the qualifiers
`xml` and `xmlns`, and the name `xmlns`, have one. -/
def QName.ofMarkup (uri : Option String) (text : String) : QName :=
  let (qualifier, localName) := match Text.cutAt ':' text.toList with
    | some (p, l) => (some (String.ofList p), String.ofList l)
    | none => (none, text)
  let reserved :=
    if qualifier = some "xml" then some Uri.xml
    else if qualifier = some "xmlns" ∨ text = "xmlns" then some Uri.xmlns
    else none
  ⟨qualifier, localName, uri.or reserved⟩

namespace Tree

instance : Inhabited Tree := ⟨.document []⟩

def kind : Tree → NodeKind
  | document _ => .document
  | element .. => .element
  | .attribute .. => .attribute
  | text _ => .text
  | comment _ => .comment
  | instruction .. => .processingInstruction

def name? : Tree → Option QName
  | element n _ _ | .attribute n _ => some n
  | instruction t _ => some ⟨none, t, none⟩
  | _ => none

def children : Tree → List Tree
  | document cs | element _ _ cs => cs
  | _ => []

def attributes : Tree → List (QName × String)
  | element _ as _ => as
  | _ => []

/-- The character data of a leaf. -/
def data? : Tree → Option String
  | .attribute _ v => some v
  | text d | comment d | instruction _ d => some d
  | _ => none

mutual

/-- Leaves have height zero; a document or element is one higher than its highest child. -/
def height : Tree → Nat
  | document cs | element _ _ cs => heights cs + 1
  | _ => 0

/-- The height of the highest of several trees. -/
def heights : List Tree → Nat
  | [] => 0
  | t :: ts => max (height t) (heights ts)

end

theorem height_le_heights {t : Tree} {ts : List Tree} (h : t ∈ ts) : t.height ≤ heights ts := by
  induction ts with
  | nil => simp at h
  | cons u us ih =>
    simp only [heights]
    rcases List.mem_cons.1 h with rfl | h
    · omega
    · have := ih h
      omega

theorem height_lt_of_mem_children {t c : Tree} (h : c ∈ t.children) : c.height < t.height := by
  cases t <;> simp only [children] at h <;> first | simp at h | skip
  all_goals
    have := height_le_heights h
    simp only [height]
    omega

mutual

/-- The text in a tree, in document order. -/
def textContent : Tree → String
  | document cs | element _ _ cs => textContents cs
  | text d => d
  | _ => ""

def textContents : List Tree → String
  | [] => ""
  | t :: ts => textContent t ++ textContents ts

end

/-- All text below a document or element; the character data of a leaf. -/
def stringValue (t : Tree) : String := t.data?.getD t.textContent

end Tree

/-- A step down from a parent. -/
inductive Descent where
  | child (index : Nat)
  | attribute (index : Nat)
  deriving Repr, DecidableEq

structure Node where
  /-- The number of its tree. -/
  tree : Nat
  /-- The way from the root, the last step first. -/
  path : List Descent
  kind : NodeKind
  name : Option QName
  /-- The height of the subtree. -/
  height : Nat
  deriving Repr, DecidableEq

instance : Inhabited Node := ⟨⟨0, [], .document, none, 0⟩⟩

/-- The place of a node in writing: the numbers of its tree and of the steps down to it, the step to
an attribute marked. -/
def Node.place (n : Node) : String :=
  n.path.foldr (fun step text => text ++ match step with
    | .child i => "/" ++ toString i
    | .attribute i => "/@" ++ toString i) (toString n.tree)

/-- Reads one step of a place. -/
def Descent.read? : List Char → Option Descent
  | '@' :: digits => (String.ofList digits).toNat?.map .attribute
  | digits => (String.ofList digits).toNat?.map .child

/-- A namespace declaration, written like an attribute. -/
def Node.isNamespaceDeclaration (n : Node) : Bool :=
  match n.name with
  | some q => q.uri == some Uri.xmlns
  | none => false

/-- Both have the same expanded name, or neither has a name. -/
def Node.sameName (a b : Node) : Bool :=
  match a.name, b.name with
  | some x, some y => x.sameName y
  | none, none => true
  | _, _ => false

abbrev Forest := List Tree

namespace Forest

/-- The subtree one step down. -/
def stepInto (t : Tree) : Descent → Option Tree
  | .child i => t.children[i]?
  | .attribute i => t.attributes[i]?.map fun (n, v) => .attribute n v

/-- The subtree at a place. -/
def at? (f : Forest) (tree : Nat) : List Descent → Option Tree
  | [] => f[tree]?
  | step :: up => (at? f tree up).bind (stepInto · step)

/-- The node for a subtree at a place. -/
def nodeOf (tree : Nat) (path : List Descent) (t : Tree) : Node :=
  ⟨tree, path, t.kind, t.name?, t.height⟩

/-- The node at a place, if there is one. -/
def node? (f : Forest) (tree : Nat) (path : List Descent) : Option Node :=
  (at? f tree path).map (nodeOf tree path)

/-- The node at a written place. -/
def atPlace? (f : Forest) (place : String) : Option Node :=
  match Text.splitAt '/' place.toList with
  | tree :: steps => do
    let path ← steps.mapM Descent.read?
    f.node? (← (String.ofList tree).toNat?) path.reverse
  | [] => none

/-- The subtree of a node. A node that is not one of the forest has none. -/
def subtree? (f : Forest) (n : Node) : Option Tree :=
  (at? f n.tree n.path).filter fun t => nodeOf n.tree n.path t == n

def children (f : Forest) (n : Node) : List Node :=
  match f.subtree? n with
  | some t => t.children.zipIdx.map fun (c, i) => nodeOf n.tree (.child i :: n.path) c
  | none => []

def attributes (f : Forest) (n : Node) : List Node :=
  match f.subtree? n with
  | some t => t.attributes.zipIdx.map fun ((q, v), i) =>
      nodeOf n.tree (.attribute i :: n.path) (.attribute q v)
  | none => []

def parent? (f : Forest) (n : Node) : Option Node :=
  match f.subtree? n, n.path with
  | some _, _ :: up => f.node? n.tree up
  | _, _ => none

/-- The value of the first attribute with the given written name. -/
def attributeValue? (f : Forest) (n : Node) (name : String) : Option String :=
  match f.subtree? n with
  | some t => (t.attributes.find? (·.1.label == name)).map (·.2)
  | none => none

def data (f : Forest) (n : Node) : String :=
  match f.subtree? n with
  | some t => t.stringValue
  | none => ""

theorem subtree?_eq_some {f : Forest} {n : Node} {t : Tree} :
    f.subtree? n = some t ↔ at? f n.tree n.path = some t ∧ nodeOf n.tree n.path t = n := by
  simp [subtree?, Option.filter_eq_some_iff]

theorem height_eq {f : Forest} {n : Node} {t : Tree} (h : f.subtree? n = some t) :
    n.height = t.height := by
  rw [← (subtree?_eq_some.1 h).2]
  rfl

theorem children_height {f : Forest} {n c : Node} (hc : c ∈ f.children n) :
    c.height < n.height := by
  unfold children at hc
  split at hc
  case h_2 => simp at hc
  case h_1 t h =>
    obtain ⟨⟨u, i⟩, hu, rfl⟩ := List.mem_map.1 hc
    have : u ∈ t.children := (List.mem_zipIdx hu).2.2 ▸ List.getElem_mem _
    rw [height_eq h]
    exact Tree.height_lt_of_mem_children this

end Forest

end XPath
