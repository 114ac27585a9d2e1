import XPath.Tree

/-!
# Specificity

A static ranking of expressions: counts of what an expression looks at, in five classes. Rankings
are compared class by class, the most telling class first. Counts are 32-bit words; adding two
rankings stops at the largest word, while building one from listed counts refuses a sum that does
not fit.
-/

namespace XPath

/-- The classes, the most telling one first. -/
inductive SpecificityClass where
  | external | attribute | nodeName | nodeType | universal
  deriving Repr, DecidableEq

namespace SpecificityClass

def all : List SpecificityClass := [.external, .attribute, .nodeName, .nodeType, .universal]

def label : SpecificityClass → String
  | .external => "external"
  | .attribute => "attribute"
  | .nodeName => "nodeName"
  | .nodeType => "nodeType"
  | .universal => "universal"

def ofLabel? (text : String) : Option SpecificityClass := all.find? (·.label == text)

end SpecificityClass

/-- How often every class counts. -/
structure Specificity where
  external : UInt32
  «attribute» : UInt32
  nodeName : UInt32
  nodeType : UInt32
  universal : UInt32
  deriving Repr, DecidableEq

namespace Specificity

def none : Specificity := ⟨0, 0, 0, 0, 0⟩

def count (s : Specificity) : SpecificityClass → UInt32
  | .external => s.external
  | .attribute => s.attribute
  | .nodeName => s.nodeName
  | .nodeType => s.nodeType
  | .universal => s.universal

/-- The ranking with the given counts. -/
def ofCounts (count : SpecificityClass → UInt32) : Specificity :=
  ⟨count .external, count .attribute, count .nodeName, count .nodeType, count .universal⟩

/-- One of a class. -/
def one (c : SpecificityClass) : Specificity := ofCounts fun d => if d = c then 1 else 0

/-- The sum of two counts, or the largest count if it is less. -/
def saturatingSum (a b : UInt32) : UInt32 :=
  UInt32.ofNat (min (a.toNat + b.toNat) (UInt32.size - 1))

/-- The ranking of expressions that must both match. -/
def add (a b : Specificity) : Specificity :=
  ofCounts fun c => saturatingSum (a.count c) (b.count c)

def sum (rankings : List Specificity) : Specificity := rankings.foldl add none

/-- The sum of two counts, if it fits. -/
def exactSum? (a b : UInt32) : Option UInt32 :=
  if a.toNat + b.toNat < UInt32.size then some (a + b) else .none

/-- Adds a count to one class. -/
def addTo? (s : Specificity) (c : SpecificityClass) (n : UInt32) : Option Specificity :=
  (exactSum? (s.count c) n).map fun m => ofCounts fun d => if d = c then m else s.count d

/-- The ranking with listed counts; a class may be listed several times. -/
def ofList? (counts : List (SpecificityClass × UInt32)) : Option Specificity :=
  counts.foldlM (fun s (c, n) => s.addTo? c n) none

/-- Lexicographic comparison of counts. -/
def compareCounts (a b : Specificity) : List SpecificityClass → Ordering
  | [] => .eq
  | c :: rest =>
    if a.count c < b.count c then .lt
    else if b.count c < a.count c then .gt
    else compareCounts a b rest

def compare (a b : Specificity) : Ordering := compareCounts a b SpecificityClass.all

/-- The higher ranking. -/
def max (a b : Specificity) : Specificity := if a.compare b = .gt then a else b

/-- The highest of several rankings. -/
def highest (rankings : List Specificity) : Specificity := rankings.foldl max none

/-- The counts other than zero, in the form of a map. -/
def label (s : Specificity) : String :=
  let shown := (SpecificityClass.all.filter fun c => s.count c ≠ 0).map fun c =>
    "\"" ++ c.label ++ "\": " ++ toString (s.count c).toNat
  "\x7b" ++ ", ".intercalate shown ++ "\x7d"

end Specificity

/-- The nodes that an expression could match at all. -/
inductive Bucket where
  | kind (k : NodeKind)
  /-- Elements with a local name. -/
  | localName (name : String)
  deriving Repr, DecidableEq

namespace Bucket

/-- Whether a node of a kind and local name can be in the bucket. -/
def admits (b : Bucket) (k : NodeKind) (localName : Option String) : Bool :=
  match b with
  | kind expected => k == expected
  | Bucket.localName name => k == .element && localName == some name

def label : Bucket → String
  | kind k => "type-" ++ k.label
  | localName name => "name-" ++ name

end Bucket

end XPath
