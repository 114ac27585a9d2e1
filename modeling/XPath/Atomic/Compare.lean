import XPath.Atomic.Cast

/-!
# Comparing atomic values

Three relations. `compare` orders two values for the general comparison operators, `deepEqual` is
the equality of the deep-equality function, and `sameKey` is the identity of map keys. They treat
numbers differently: `compare` is exact on integers and decimals and has no answer for NaN,
`deepEqual` compares them as singles or doubles and NaN equals itself, `sameKey` is exact on
integers and decimals and otherwise as `deepEqual`.
-/

namespace XPath.Atomic

open Number Time

/-! ## Deep equality and map keys -/

/-- Numbers are equal, NaN to itself included. -/
def sameNumber {f : Format} (x y : Binary f) : Bool := x.equal y || (x.isNaN && y.isNaN)

/-- A numeric value as a single. -/
def single? (a : Atomic) : Option Single :=
  match a.scalar with
  | .float f => some f
  | _ => a.double?.map Double.narrow

/-- Integers, decimals and floats. -/
def isFloatLike (a : Atomic) : Bool :=
  match a.scalar with
  | .integer _ | .decimal _ | .float _ => true
  | _ => false

/-- The date and time types whose values can be deep-equal. -/
def isComparableMoment (t : ItemType) : Bool :=
  t = .dateTime || t = .date || t = .time || t = .gYearMonth || t = .gYear || t = .gMonthDay ||
    t = .gMonth || t = .gDay

/-- Equality of the payloads that are neither numbers nor compared by a rule of their own. -/
def samePayload : Scalar → Scalar → Bool
  | .boolean x, .boolean y => x = y
  | .string x, .string y => x = y
  | .duration x, .duration y => x.months = y.months && x.seconds.equal y.seconds
  | .binary x, .binary y => x = y
  | _, _ => false

/-- Equality of two atomic values as items. Integers, decimals and floats compare as singles, other
pairs of numbers as doubles. -/
def deepEqual (a b : Atomic) : Bool :=
  if a.isFloatLike && b.isFloatLike then
    match a.single?, b.single? with
    | some x, some y => sameNumber x y
    | _, _ => false
  else if a.isNumeric && b.isNumeric then
    match a.double?, b.double? with
    | some x, some y => sameNumber x y
    | _, _ => false
  else
    match a.scalar, b.scalar with
    | .qName x, .qName y => x.sameName y
    | .temporal x, .temporal y =>
      let family (t : ItemType) := t.primitive?.filter isComparableMoment
      (family a.type).isSome && family a.type == family b.type && x.sameInstant y
    | x, y => samePayload x y

/-- A date or time has an instant in the calendar. -/
def hasInstant (a : Atomic) : Bool :=
  match a.scalar with
  | .temporal t => t.hasInstant
  | _ => true

/-- Two dates or times of one family are compared by their instants; where there is none the
comparison does not end. -/
def canCompare (a b : Atomic) : Bool :=
  match a.scalar, b.scalar with
  | .temporal _, .temporal _ =>
    a.type.primitive? != b.type.primitive? || (a.hasInstant && b.hasInstant)
  | _, _ => true

/-- Identity of map keys. -/
def sameKey (a b : Atomic) : Bool :=
  match a.asDecimal?, b.asDecimal? with
  | some x, some y => x.equal y
  | _, _ => deepEqual a b

/-! ## General comparison -/

/-- The operators of general comparison. -/
inductive Relation where
  | eq | ne | lt | le | gt | ge
  deriving Repr, DecidableEq

namespace Relation

def holds : Relation → Ordering → Bool
  | .eq, o => o == .eq
  | .ne, o => o != .eq
  | .lt, o => o == .lt
  | .le, o => o != .gt
  | .gt, o => o == .gt
  | .ge, o => o != .lt

def label : Relation → String
  | .eq => "="
  | .ne => "!="
  | .lt => "<"
  | .le => "<="
  | .gt => ">"
  | .ge => ">="

def ofLabel? (text : String) : Option Relation :=
  [Relation.eq, .ne, .lt, .le, .gt, .ge].find? (·.label == text)

def isEquality : Relation → Bool
  | .eq | .ne => true
  | _ => false

end Relation

def incomparable (a b : Atomic) : Error :=
  .typeError (a.type.label ++ " and " ++ b.type.label ++ " cannot be compared")

/-- The order of strings by code point. -/
def compareStrings (x y : String) : Ordering := if x < y then .lt else if x = y then .eq else .gt

/-- The order of octet strings, octet by octet. -/
def compareOctets : List UInt8 → List UInt8 → Ordering
  | [], [] => .eq
  | [], _ :: _ => .lt
  | _ :: _, [] => .gt
  | a :: as, b :: bs => if a < b then .lt else if b < a then .gt else compareOctets as bs

/-- Strings and URIs, but not untyped values. -/
def isText (a : Atomic) : Bool := a.isInstanceOf .string || a.isInstanceOf .anyUri

/-- The order of two values; none for numbers that have no order. Some types admit only a test for
equality. -/
def compare (a b : Atomic) (equalityOnly : Bool) : Except Error (Option Ordering) :=
  if a.isNumeric && b.isNumeric then
    match a.asDecimal?, b.asDecimal? with
    | some x, some y => .ok (some (x.compare y))
    | _, _ =>
      match a.double?, b.double? with
      | some x, some y => .ok (x.compare y)
      | _, _ => .ok none
  else if a.isText && b.isText then
    match a.string?, b.string? with
    | some x, some y => .ok (some (compareStrings x y))
    | _, _ => .ok none
  else
    match a.scalar, b.scalar with
    | .boolean x, .boolean y => .ok (some (Ord.compare x.toNat y.toNat))
    | .temporal x, .temporal y =>
      if a.type.primitive? = b.type.primitive? then
        .ok (some (Ord.compare x.instant.ordinal y.instant.ordinal))
      else .error (incomparable a b)
    | .duration x, .duration y =>
      if equalityOnly || (a.type = b.type && a.type ≠ .duration) then
        .ok (some ((Ord.compare x.months y.months).then (x.seconds.compare y.seconds)))
      else .error (incomparable a b)
    | .qName x, .qName y =>
      if equalityOnly then .ok (some (if x.sameName y then .eq else .lt))
      else .error (incomparable a b)
    | .binary x, .binary y =>
      if equalityOnly && a.type = b.type then .ok (some (compareOctets x y))
      else .error (incomparable a b)
    | _, _ => .error (incomparable a b)

def isUntyped (a : Atomic) : Bool := a.isInstanceOf .untypedAtomic

/-- The type that an untyped value takes beside another value. -/
def partnerType (other : Atomic) : ItemType :=
  if other.isUntyped || other.isText then .string
  else if other.isNumeric then .double
  else other.type.primitive?.getD .string

/-- Casts an untyped operand to the type of its partner. -/
def harmonize (a b : Atomic) : Except Error (Atomic × Atomic) :=
  match a.isUntyped, b.isUntyped with
  | true, true => do return (← a.cast .string, ← b.cast .string)
  | true, false => do return (← a.cast (partnerType b), b)
  | false, true => do return (a, ← b.cast (partnerType a))
  | false, false => .ok (a, b)

/-- Whether one pair of operand items stands in a relation. -/
def related (op : Relation) (a b : Atomic) : Except Error Bool := do
  let (x, y) ← harmonize a b
  let order ← compare x y op.isEquality
  return (order.map op.holds).getD false

/-- The first pair, in the order of the left operand and then the right one, that is related or
fails decides. -/
def generalCompare (op : Relation) (left right : List Atomic) : Except Error Bool :=
  match left with
  | [] => .ok false
  | a :: rest => do if ← row right a then return true else generalCompare op rest right
where
  row : List Atomic → Atomic → Except Error Bool
    | [], _ => .ok false
    | b :: bs, a => do if ← related op a b then return true else row bs a

end XPath.Atomic
