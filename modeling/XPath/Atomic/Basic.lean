import XPath.Number.Conversion
import XPath.Number.Text
import XPath.Text.Octets
import XPath.Time.Duration

/-!
# Atomic values

An atomic value is a payload with a type. The type is one whose family the payload belongs to
(`Scalar.fits`); the value carries a proof of that, so no operation can pair a type with a foreign
payload. `ofScalar?` is the checked constructor.
-/

namespace XPath

open Number Time

/-- The payload of an atomic value. -/
inductive Scalar where
  | boolean (b : Bool)
  | integer (i : Int)
  | decimal (d : Decimal)
  | float (f : Single)
  | double (d : Double)
  | string (s : String)
  | qName (q : QName)
  | temporal (t : Temporal)
  | duration (d : Duration)
  | binary (octets : List UInt8)
  deriving Repr, DecidableEq

/-- Whether a type belongs to the family of a payload. Strings stand for every string type and for
the types that are written like strings. -/
def Scalar.fits (type : ItemType) : Scalar → Bool
  | .boolean _ => type = .boolean
  | .integer _ => type.isSubtypeOf .integer
  | .decimal _ => type = .decimal
  | .float _ => type = .float
  | .double _ => type = .double
  | .string _ =>
    type.isSubtypeOf .string || type = .untypedAtomic || type = .anyUri || type = .notationName
  | .qName _ => type = .qName
  | .temporal _ =>
    type = .dateTime || type = .dateTimeStamp || type = .date || type = .time || type = .gYear ||
      type = .gYearMonth || type = .gMonth || type = .gMonthDay || type = .gDay
  | .duration _ => type.isSubtypeOf .duration
  | .binary _ => type = .hexBinary || type = .base64Binary

structure Atomic where
  type : ItemType
  scalar : Scalar
  fits : scalar.fits type = true
  deriving Repr, DecidableEq

namespace Atomic

/-- The value of a type with a payload, if the type belongs to its family. -/
def ofScalar? (type : ItemType) (scalar : Scalar) : Option Atomic :=
  if h : scalar.fits type = true then some ⟨type, scalar, h⟩ else none

/-- The checked constructor for a type given by name. -/
def create (type : TypeName) (scalar : Scalar) : Except Error Atomic :=
  match type with
  | .unknown text => .error (.typeError ("unknown atomic type " ++ text))
  | .known t =>
    match ofScalar? t scalar with
    | some a => .ok a
    | none => .error (.typeError ("cannot create a value of type " ++ t.label))

def boolean (b : Bool) : Atomic := ⟨.boolean, .boolean b, rfl⟩
def integer (i : Int) : Atomic := ⟨.integer, .integer i, ItemType.isSubtypeOf_refl .integer⟩
def decimal (d : Number.Decimal) : Atomic := ⟨.decimal, .decimal d, rfl⟩
def float (f : Single) : Atomic := ⟨.float, .float f, rfl⟩
def double (d : Double) : Atomic := ⟨.double, .double d, rfl⟩
def string (s : String) : Atomic := ⟨.string, .string s, rfl⟩
def untyped (s : String) : Atomic := ⟨.untypedAtomic, .string s, rfl⟩
def anyUri (s : String) : Atomic := ⟨.anyUri, .string s, rfl⟩
def qName (q : QName) : Atomic := ⟨.qName, .qName q, rfl⟩

instance : Inhabited Atomic := ⟨boolean false⟩

def isInstanceOf (a : Atomic) (ancestor : ItemType) : Bool := a.type.isSubtypeOf ancestor

/-- Integers, decimals, floats and doubles. -/
def isNumeric (a : Atomic) : Bool :=
  match a.scalar with
  | .integer _ | .decimal _ | .float _ | .double _ => true
  | _ => false

/-- Strings, untyped values and URIs. -/
def isStringLike (a : Atomic) : Bool :=
  match a.scalar with
  | .string _ => true
  | _ => false

def string? (a : Atomic) : Option String :=
  match a.scalar with
  | .string s => some s
  | _ => none

/-- A numeric value as a double. -/
def double? (a : Atomic) : Option Double :=
  match a.scalar with
  | .integer i => some (.ofInt i)
  | .decimal d => some d.toDouble
  | .float f => some f.widen
  | .double d => some d
  | _ => none

/-- An integer or decimal as a decimal. -/
def asDecimal? (a : Atomic) : Option Number.Decimal :=
  match a.scalar with
  | .integer i => some (.ofInt i)
  | .decimal d => some d
  | _ => none

/-- The canonical lexical form. -/
def text (a : Atomic) : String :=
  match a.scalar with
  | .boolean b => if b then "true" else "false"
  | .integer i => Text.intText i
  | .decimal d => String.ofList d.canonicalText
  | .float f => f.canonicalText
  | .double d => d.canonicalText
  | .string s => s
  | .qName q => q.label
  | .temporal t => String.ofList (t.text a.type)
  | .duration d => String.ofList (d.text a.type)
  | .binary octets =>
    String.ofList
      (if a.type = .base64Binary then Text.base64Text octets else Text.hexText octets)

end Atomic

end XPath
