import XPath.Atomic.Basic

/-!
# Casting

A value of its own type casts to itself; every value casts to a string or an untyped value by its
canonical form; string-like values are read again from their lexical form (`ofLexical`), and all
others convert value to value (`convert`). The result is built by the constructor of the target
type, so its payload belongs to that type.
-/

namespace XPath

open Number Text Time

/-! ## Lexical qualified names -/

/-- Resolves `local` or `qualifier:local`, given the namespace of each qualifier that is bound; an
unqualified name is in the namespace of the empty qualifier. -/
def QName.resolveBy (uriOf : String → Option String) (lexical : String) : Except Error QName :=
  let s := collapse lexical.toList
  let (qualifier, localName) := match cutAt ':' s with
    | some (p, l) => (some p, l)
    | none => (none, s)
  if !isNCName localName || (qualifier.map fun p => !isNCName p).getD false then
    .error ⟨.FORG0001, "invalid QName '" ++ lexical ++ "'"⟩
  else
    let name := String.ofList localName
    match qualifier with
    | none => .ok ⟨none, name, uriOf ""⟩
    | some p =>
      let p := String.ofList p
      match uriOf p with
      | some uri => .ok ⟨some p, name, some uri⟩
      | none => .error ⟨.FONS0004, "no namespace is bound to prefix '" ++ p ++ "'"⟩

/-- Resolves a lexical name by namespace bindings. -/
def QName.resolve (ns : Namespaces) (lexical : String) : Except Error QName :=
  resolveBy ns.resolve lexical

namespace Atomic

/-! ## Errors -/

def notAtomic (target : String) : Error := .typeError (target ++ " is not an atomic type")

def abstractTarget (target : ItemType) : Error :=
  .typeError ("cannot cast to abstract type " ++ target.label)

def notCastable (source target : ItemType) : Error :=
  .typeError ("casting from " ++ source.label ++ " to " ++ target.label ++ " is not supported")

def invalidLexical (target : ItemType) (text : String) : Error :=
  ⟨.FORG0001, "cannot cast '" ++ text ++ "' to " ++ target.label⟩

def nonFinite (target : ItemType) (d : Double) : Error :=
  ⟨.FOCA0002, "cannot cast " ++ d.plainText ++ " to " ++ target.label⟩

/-! ## Integers -/

/-- The range facets of the integer types within 64 bits. -/
def integerInRange (target : ItemType) (i : Int) : Bool :=
  let between (low high : Int) : Bool := low ≤ i && i ≤ high
  match target with
  | .int => between (-2147483648) 2147483647
  | .short => between (-32768) 32767
  | .byte => between (-128) 127
  | .nonPositiveInteger => i ≤ 0
  | .negativeInteger => i < 0
  | .nonNegativeInteger | .unsignedLong => 0 ≤ i
  | .positiveInteger => 0 < i
  | .unsignedInt => between 0 4294967295
  | .unsignedShort => between 0 65535
  | .unsignedByte => between 0 255
  | _ => true

def minInteger : Int := -9223372036854775808
def maxInteger : Int := 9223372036854775807

/-- Integers have 64 bits. -/
def fitsInteger (i : Int) : Bool := minInteger ≤ i && i ≤ maxInteger

def makeInteger (target : ItemType) (i : Int) : Except Error Atomic :=
  if integerInRange target i then create (.known target) (.integer i)
  else .error (invalidLexical target (intText i))

/-! ## From lexical forms -/

/-- The special floating point texts, and numerals with an optional exponent. -/
def readBinary? (f : Format) (s : List Char) : Option (Binary f) :=
  if s = "INF".toList ∨ s = "+INF".toList then some (.infinite false)
  else if s = "-INF".toList then some (.infinite true)
  else if s = "NaN".toList then some .nan
  else readScientific? f s

def readDouble? (s : List Char) : Option Double := readBinary? .binary64 s

/-- The string that a string type makes of a text, if it accepts the text. -/
def readString? (target : ItemType) (raw : List Char) : Option (List Char) :=
  let s := trim raw
  let checked (p : Bool) := if p then some s else none
  match target with
  | .normalizedString => some (raw.map fun c => if c = '\t' ∨ c = '\n' ∨ c = '\r' then ' ' else c)
  | .token => some (collapse raw)
  | .language => checked (isLanguage s)
  | .nmtoken => checked (isNmtoken s)
  | .name => checked (isName s)
  | .ncName | .id | .idref | .entity => checked (isNCName s)
  | _ => some raw

/-- The value of type `target` that a text spells. -/
def ofLexical (ns : Namespaces) (target : ItemType) (raw : String) : Except Error Atomic :=
  let s := trimString raw
  let invalid : Except Error Atomic := .error (invalidLexical target raw)
  match target.primitive? with
  | none => .error (notCastable .string target)
  | some .string =>
    match readString? target raw.toList with
    | some value => create (.known target) (.string (String.ofList value))
    | none => invalid
  | some .anyUri => .ok (anyUri (String.ofList s))
  | some .boolean =>
    if s = "true".toList ∨ s = "1".toList then .ok (boolean true)
    else if s = "false".toList ∨ s = "0".toList then .ok (boolean false)
    else invalid
  | some .decimal =>
    match (Numeral.read? s).bind Number.Decimal.ofNumeral? with
    | some d => .ok (decimal d)
    | none => invalid
  | some .integer =>
    match readInteger? s with
    | some i => if fitsInteger i then makeInteger target i else invalid
    | none => invalid
  | some .double =>
    match readDouble? s with
    | some d => .ok (double d)
    | none => invalid
  | some .float =>
    match readDouble? s with
    | some d => .ok (float d.narrow)
    | none => invalid
  | some .qName => (QName.resolve ns (String.ofList s)).map qName
  | some .duration => do
    create (.known target) (.duration (← Duration.parse target (String.ofList s)))
  | some .hexBinary =>
    match readHex? s with
    | some octets => create (.known target) (.binary octets)
    | none => invalid
  | some .base64Binary =>
    match readBase64? (s.filter (!isBlank ·)) with
    | some octets => create (.known target) (.binary octets)
    | none => invalid
  | some _ => do create (.known target) (.temporal (← Temporal.parse target (String.ofList s)))

/-! ## From values -/

/-- Numbers and booleans as a decimal. -/
def toDecimal (a : Atomic) (target : ItemType) : Except Error Number.Decimal :=
  match a.scalar with
  | .integer i => .ok (.ofInt i)
  | .decimal d => .ok d
  | .boolean b => .ok (.ofInt (if b then 1 else 0))
  | .float _ | .double _ =>
    let d := a.double?.getD .nan
    match Number.Decimal.ofDouble? d with
    | some x => .ok x
    | none => .error (nonFinite target d)
  | _ => .error (notCastable a.type target)

/-- Numbers and booleans as a double. -/
def toDouble? (a : Atomic) : Option Double :=
  match a.scalar with
  | .boolean b => some (.ofInt (if b then 1 else 0))
  | _ => a.double?

/-- The moment of a date or time value in another date or time type, if there is one: parts that the
target lacks take their reference values. -/
def projection? (source target : ItemType) (t : Temporal) : Option Moment :=
  let d := t.moment.date
  let atMidnight (d : Date) : Option Moment := some ⟨d, .midnight⟩
  let hasDate := source = .dateTime ∨ source = .dateTimeStamp ∨ source = .date
  let hasBoth := source = .dateTime ∨ source = .dateTimeStamp
  match target with
  | .dateTime => if source = .date ∨ source = .dateTimeStamp then some t.moment else none
  | .dateTimeStamp => if source = .dateTime ∧ t.offset.isSome then some t.moment else none
  | .date => if hasDate then atMidnight d else none
  | .time => if hasBoth then some ⟨⟨referenceYear, 12, 31⟩, t.moment.time⟩ else none
  | .gYear => if hasDate then atMidnight ⟨d.year, 1, 1⟩ else none
  | .gYearMonth => if hasDate then atMidnight ⟨d.year, d.month, 1⟩ else none
  | .gMonth => if hasDate then atMidnight ⟨referenceYear, d.month, 1⟩ else none
  | .gMonthDay => if hasDate then atMidnight ⟨referenceYear, d.month, d.day⟩ else none
  | .gDay => if hasDate then atMidnight ⟨referenceYear, 12, d.day⟩ else none
  | _ => none

/-- A date or time value in another date or time type. -/
def convertTemporal (source target : ItemType) (t : Temporal) : Except Error Atomic :=
  match projection? source target t with
  | some m => create (.known target) (.temporal ⟨m, t.offset⟩)
  | none => .error (notCastable source target)

/-- Conversion of a value that is not string-like. -/
def convert (a : Atomic) (target : ItemType) : Except Error Atomic :=
  let unsupported : Except Error Atomic := .error (notCastable a.type target)
  match target.primitive?, a.scalar with
  | none, _ => unsupported
  | some .boolean, .integer i => .ok (boolean (i ≠ 0))
  | some .boolean, .decimal d => .ok (boolean !d.isZero)
  | some .boolean, .float _ | some .boolean, .double _ =>
    let d := a.double?.getD .nan
    .ok (boolean (!d.isZero && !d.isNaN))
  | some .double, _ =>
    match a.toDouble? with
    | some d => .ok (double d)
    | none => unsupported
  | some .float, _ =>
    match a.toDouble? with
    | some d => .ok (float d.narrow)
    | none => unsupported
  | some .decimal, _ => (a.toDecimal target).map decimal
  | some .integer, .integer i => makeInteger target i
  | some .integer, _ => do
    let d := (← a.toDecimal target).trunc
    if fitsInteger d.truncate then makeInteger target d.truncate
    else .error ⟨.FOCA0002, String.ofList d.text ++ " is out of range for " ++ target.label⟩
  | some .duration, .duration d =>
    create (.known target) (.duration (match target with
      | .yearMonthDuration => ⟨d.months, .zero⟩
      | .dayTimeDuration => ⟨0, d.seconds⟩
      | _ => d))
  | some .hexBinary, .binary octets | some .base64Binary, .binary octets =>
    create (.known target) (.binary octets)
  | some _, .temporal t => convertTemporal a.type target t
  | some _, _ => unsupported

/-! ## The cast -/

/-- Casts to a known type; qualified names are resolved by the bindings. -/
def castTo (ns : Namespaces) (a : Atomic) (target : ItemType) : Except Error Atomic :=
  if !target.isAtomic then .error (notAtomic target.label)
  else if target.isAbstract then .error (abstractTarget target)
  else if a.type = target then .ok a
  else if target = .untypedAtomic then .ok (untyped a.text)
  else if target = .string then .ok (string a.text)
  else if a.isStringLike then ofLexical ns target a.text
  else if target.isSubtypeOf .string ∨ target = .anyUri then .error (notCastable a.type target)
  else a.convert target

/-- Casts to a type given by name. -/
def castWith (ns : Namespaces) (a : Atomic) (target : TypeName) : Except Error Atomic :=
  match target with
  | .unknown text => .error (notAtomic text)
  | .known t => a.castTo ns t

/-- Casts without namespace bindings. -/
def cast (a : Atomic) (target : ItemType) : Except Error Atomic := a.castTo .minimal target

end Atomic

end XPath
