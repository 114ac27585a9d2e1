import XPath.Text.Blank

/-!
# The type hierarchy

Every item type has exactly one parent except `item()`, the root. The subtype test walks up the
hierarchy (`isSubtypeOf_iff`); a value carries one of the concrete atomic types. A sequence type is
an item type with the number of items it allows; its item type may be a name that is not in the
hierarchy, and then it has no instances.
-/

namespace XPath

/-- The known item types. -/
inductive ItemType where
  | item | node | function | anyAtomicType | map | array | document | element | attribute | text
  | comment | processingInstruction | untypedAtomic | string | normalizedString | token
  | language | nmtoken | name | ncName | id | idref | entity | anyUri | boolean | numeric
  | decimal | float | double | integer | nonPositiveInteger | negativeInteger | long | int
  | short | byte | nonNegativeInteger | unsignedLong | unsignedInt | unsignedShort | unsignedByte
  | positiveInteger | qName | notationName | duration | yearMonthDuration | dayTimeDuration
  | dateTime | dateTimeStamp | date | time | gYearMonth | gYear | gMonthDay | gDay | gMonth
  | hexBinary | base64Binary
  deriving Repr, DecidableEq

namespace ItemType

/-- The direct supertype. -/
def parent : ItemType → Option ItemType
  | .item => none
  | .node | .function | .anyAtomicType => some .item
  | .map | .array => some .function
  | .document | .element | .attribute | .text | .comment | .processingInstruction => some .node
  | .untypedAtomic | .string | .anyUri | .boolean | .numeric | .qName => some .anyAtomicType
  | .notationName | .duration | .dateTime | .date | .time | .gYearMonth => some .anyAtomicType
  | .gYear | .gMonthDay | .gDay | .gMonth | .hexBinary | .base64Binary => some .anyAtomicType
  | .normalizedString => some .string
  | .token => some .normalizedString
  | .language | .nmtoken | .name => some .token
  | .ncName => some .name
  | .id | .idref | .entity => some .ncName
  | .decimal | .float | .double => some .numeric
  | .integer => some .decimal
  | .nonPositiveInteger | .long | .nonNegativeInteger => some .integer
  | .negativeInteger => some .nonPositiveInteger
  | .int => some .long
  | .short => some .int
  | .byte => some .short
  | .unsignedLong | .positiveInteger => some .nonNegativeInteger
  | .unsignedInt => some .unsignedLong
  | .unsignedShort => some .unsignedInt
  | .unsignedByte => some .unsignedShort
  | .yearMonthDuration | .dayTimeDuration => some .duration
  | .dateTimeStamp => some .dateTime

/-- The name under which a type is known. -/
def label : ItemType → String
  | .item => "item()"
  | .node => "node()"
  | .function => "function(*)"
  | .anyAtomicType => "xs:anyAtomicType"
  | .map => "map(*)"
  | .array => "array(*)"
  | .document => "document()"
  | .element => "element()"
  | .attribute => "attribute()"
  | .text => "text()"
  | .comment => "comment()"
  | .processingInstruction => "processing-instruction()"
  | .untypedAtomic => "xs:untypedAtomic"
  | .string => "xs:string"
  | .normalizedString => "xs:normalizedString"
  | .token => "xs:token"
  | .language => "xs:language"
  | .nmtoken => "xs:NMTOKEN"
  | .name => "xs:Name"
  | .ncName => "xs:NCName"
  | .id => "xs:ID"
  | .idref => "xs:IDREF"
  | .entity => "xs:ENTITY"
  | .anyUri => "xs:anyURI"
  | .boolean => "xs:boolean"
  | .numeric => "xs:numeric"
  | .decimal => "xs:decimal"
  | .float => "xs:float"
  | .double => "xs:double"
  | .integer => "xs:integer"
  | .nonPositiveInteger => "xs:nonPositiveInteger"
  | .negativeInteger => "xs:negativeInteger"
  | .long => "xs:long"
  | .int => "xs:int"
  | .short => "xs:short"
  | .byte => "xs:byte"
  | .nonNegativeInteger => "xs:nonNegativeInteger"
  | .unsignedLong => "xs:unsignedLong"
  | .unsignedInt => "xs:unsignedInt"
  | .unsignedShort => "xs:unsignedShort"
  | .unsignedByte => "xs:unsignedByte"
  | .positiveInteger => "xs:positiveInteger"
  | .qName => "xs:QName"
  | .notationName => "xs:NOTATION"
  | .duration => "xs:duration"
  | .yearMonthDuration => "xs:yearMonthDuration"
  | .dayTimeDuration => "xs:dayTimeDuration"
  | .dateTime => "xs:dateTime"
  | .dateTimeStamp => "xs:dateTimeStamp"
  | .date => "xs:date"
  | .time => "xs:time"
  | .gYearMonth => "xs:gYearMonth"
  | .gYear => "xs:gYear"
  | .gMonthDay => "xs:gMonthDay"
  | .gDay => "xs:gDay"
  | .gMonth => "xs:gMonth"
  | .hexBinary => "xs:hexBinary"
  | .base64Binary => "xs:base64Binary"

/-- Every type; below the root in the order in which the hierarchy lists them. -/
def all : List ItemType := [
  .item, .node, .function, .anyAtomicType, .map, .array, .document, .element, .attribute, .text,
  .comment, .processingInstruction, .untypedAtomic, .string, .normalizedString, .token,
  .language, .nmtoken, .name, .ncName, .id, .idref, .entity, .anyUri, .boolean, .numeric,
  .decimal, .float, .double, .integer, .nonPositiveInteger, .negativeInteger, .long, .int,
  .short, .byte, .nonNegativeInteger, .unsignedLong, .unsignedInt, .unsignedShort, .unsignedByte,
  .positiveInteger, .qName, .notationName, .duration, .yearMonthDuration, .dayTimeDuration,
  .dateTime, .dateTimeStamp, .date, .time, .gYearMonth, .gYear, .gMonthDay, .gDay, .gMonth,
  .hexBinary, .base64Binary]

theorem mem_all (t : ItemType) : t ∈ all := by cases t <;> decide

/-- The type with a given name. -/
def ofName? (text : String) : Option ItemType := all.find? (·.label == text)

/-- A type and its supertypes, from the bottom up, as far as `n` parents. -/
def lineage : Nat → ItemType → List ItemType
  | 0, t => [t]
  | n + 1, t => t :: match t.parent with
    | some p => lineage n p
    | none => []

/-- A type and all its supertypes, from the bottom up. -/
def ancestry (t : ItemType) : List ItemType := lineage all.length t

/-- Whether `ancestor` lies on the way from `t` to the root, both ends included. -/
def isSubtypeOf (t ancestor : ItemType) : Bool := t.ancestry.contains ancestor

theorem isSubtypeOf_refl (t : ItemType) : t.isSubtypeOf t = true := by
  cases t <;> decide

theorem isSubtypeOf_iff (t ancestor : ItemType) :
    t.isSubtypeOf ancestor = true ↔
      t = ancestor ∨ ∃ p, t.parent = some p ∧ p.isSubtypeOf ancestor = true := by
  have key : t.ancestry = t :: (t.parent.map ancestry).getD [] := by
    cases t <;> decide
  unfold isSubtypeOf
  rw [key]
  cases t.parent with
  | none =>
    simp only [Option.map_none, Option.getD_none, List.contains_iff_mem, List.mem_singleton]
    constructor
    · exact fun h => .inl h.symm
    · rintro (rfl | ⟨p, hp, _⟩)
      · rfl
      · cases hp
  | some p =>
    simp only [Option.map_some, Option.getD_some, List.contains_iff_mem, List.mem_cons]
    constructor
    · rintro (rfl | h)
      · exact .inl rfl
      · exact .inr ⟨p, rfl, h⟩
    · rintro (rfl | ⟨q, hq, h⟩)
      · exact .inl rfl
      · cases hq
        exact .inr h

def isAtomic (t : ItemType) : Bool := t.isSubtypeOf .anyAtomicType

/-- Atomic types that no cast produces. -/
def isAbstract : ItemType → Bool
  | .anyAtomicType | .numeric | .notationName => true
  | _ => false

/-- The atomic types that values carry, in the order of the hierarchy. -/
def concreteAtomic : List ItemType := all.filter fun t => t.isAtomic && !t.isAbstract

/-- The ancestor right below the abstract types; integers count as primitive. -/
def primitive? (t : ItemType) : Option ItemType :=
  t.ancestry.find? fun a =>
    a == .integer || a.parent == some .anyAtomicType || a.parent == some .numeric

end ItemType

/-- The name of an item type, in the hierarchy or not. -/
inductive TypeName where
  | known (type : ItemType)
  | unknown (text : String)
  deriving Repr, DecidableEq

namespace TypeName

def ofString (text : String) : TypeName :=
  match ItemType.ofName? text with
  | some t => .known t
  | none => .unknown text

def label : TypeName → String
  | .known t => t.label
  | .unknown text => text

def isAtomic : TypeName → Bool
  | .known t => t.isAtomic
  | .unknown _ => false

/-- The type in the hierarchy that a name stands for. -/
def type? : TypeName → Option ItemType
  | .known t => some t
  | .unknown _ => none

/-- Whether items of type `t` are instances. -/
def admits (t : ItemType) : TypeName → Bool
  | .known ancestor => t.isSubtypeOf ancestor
  | .unknown _ => false

/-- Whether one type lies below another one; names outside the hierarchy are related to nothing. -/
def isSubtypeOf (name ancestor : TypeName) : Bool := name.type?.any fun t => ancestor.admits t

end TypeName

/-- How many items a sequence type allows. -/
inductive Occurrence where
  | exactlyOne | zeroOrOne | zeroOrMore | oneOrMore
  deriving Repr, DecidableEq

namespace Occurrence

def allows (count : Nat) : Occurrence → Bool
  | .exactlyOne => count = 1
  | .zeroOrOne => count ≤ 1
  | .zeroOrMore => true
  | .oneOrMore => 1 ≤ count

/-- At most one item is allowed. -/
def isSingle : Occurrence → Bool
  | .exactlyOne | .zeroOrOne => true
  | .zeroOrMore | .oneOrMore => false

theorem isSingle_iff (o : Occurrence) : o.isSingle = true ↔ o.allows 2 = false := by
  cases o <;> decide

def label : Occurrence → String
  | .exactlyOne => "ExactlyOne"
  | .zeroOrOne => "ZeroOrOne"
  | .zeroOrMore => "ZeroOrMore"
  | .oneOrMore => "OneOrMore"

/-- The sign that follows an item type. -/
def sign : Occurrence → String
  | .exactlyOne => ""
  | .zeroOrOne => "?"
  | .zeroOrMore => "*"
  | .oneOrMore => "+"

end Occurrence

/-- An item type with an occurrence. -/
structure SequenceType where
  itemType : TypeName
  occurrence : Occurrence
  deriving Repr, DecidableEq

namespace SequenceType

/-- Reads an item type followed by an optional occurrence sign; blanks around the whole are
ignored. -/
def ofString (text : String) : SequenceType :=
  let s := Text.trimString text
  let name (cs : List Char) := TypeName.ofString (String.ofList cs)
  match s.getLast? with
  | some '?' => ⟨name s.dropLast, .zeroOrOne⟩
  | some '*' => ⟨name s.dropLast, .zeroOrMore⟩
  | some '+' => ⟨name s.dropLast, .oneOrMore⟩
  | _ => ⟨name s, .exactlyOne⟩

def label (t : SequenceType) : String := t.itemType.label ++ t.occurrence.sign

def isAtomic (t : SequenceType) : Bool := t.itemType.isAtomic

/-- Any number of items of any type. -/
def anything : SequenceType := ⟨.known .item, .zeroOrMore⟩

end SequenceType

end XPath
