import XPath.Atomic.Arithmetic
import XPath.Proofs.Atomic.Casting

/-!
# Concrete values

A value is concrete if its type is one of those that values carry and its payload is the one that belongs
to the primitive type of that type (`Atomic.IsConcrete`). The payload always fits the type, so there is
one type that has to be looked at: the checked constructor accepts a text for the type of notations,
which is abstract (`Atomic.isConcrete_iff`). Nothing else makes a value of that type. A cast gives a
value of its target, which is not abstract, and arithmetic gives numbers: concreteness is one of the
properties that the operations on atomic values keep (`Atomic.Kept`).
-/

/-- What it comes to, if it is no error, has the property. -/
def Except.All {ε α : Type} (Q : α → Prop) (x : Except ε α) : Prop := ∀ a, x = .ok a → Q a

namespace Except.All

variable {ε α β : Type} {Q : α → Prop} {R : β → Prop} {x : Except ε α}

theorem ok {a : α} (ha : Q a) : Except.All Q (.ok a : Except ε α) := by
  rintro _ ⟨⟩
  exact ha

theorem error {e : ε} : Except.All Q (.error e : Except ε α) := fun _ h => nomatch h

theorem imp {Q' : α → Prop} (hx : Except.All Q x) (h : ∀ a, Q a → Q' a) : Except.All Q' x :=
  fun a ha => h a (hx a ha)

theorem bind {f : α → Except ε β} (hx : Except.All Q x) (hf : ∀ a, Q a → Except.All R (f a)) :
    Except.All R (x >>= f) := by
  cases x with
  | ok a => exact hf a (hx a rfl)
  | error e => exact error

theorem map {f : α → β} (hx : Except.All Q x) (hf : ∀ a, Q a → R (f a)) : Except.All R (x.map f) := by
  cases x with
  | ok a => exact ok (hf a (hx a rfl))
  | error e => exact error

theorem true : Except.All (fun _ : α => True) x := fun _ _ => trivial

end Except.All

namespace XPath

/-! ## Payloads -/

/-- The kinds of payload. -/
inductive Payload where
  | boolean | integer | decimal | float | double | string | qName | temporal | duration | binary
  deriving DecidableEq

def Scalar.payload : Scalar → Payload
  | .boolean _ => .boolean
  | .integer _ => .integer
  | .decimal _ => .decimal
  | .float _ => .float
  | .double _ => .double
  | .string _ => .string
  | .qName _ => .qName
  | .temporal _ => .temporal
  | .duration _ => .duration
  | .binary _ => .binary

/-- The payload of a primitive type. -/
def ItemType.payload? : ItemType → Option Payload
  | .boolean => some .boolean
  | .integer => some .integer
  | .decimal => some .decimal
  | .float => some .float
  | .double => some .double
  | .string | .untypedAtomic | .anyUri => some .string
  | .qName => some .qName
  | .dateTime | .date | .time | .gYearMonth | .gYear | .gMonthDay | .gDay | .gMonth => some .temporal
  | .duration => some .duration
  | .hexBinary | .base64Binary => some .binary
  | _ => none

namespace Atomic

/-- The type is one that values carry, and the payload the one of its primitive type. -/
structure IsConcrete (a : Atomic) : Prop where
  type : a.type ∈ ItemType.concreteAtomic
  payload : a.type.primitive?.bind ItemType.payload? = some a.scalar.payload

theorem isConcrete_iff {a : Atomic} : a.IsConcrete ↔ a.type ≠ .notationName := by
  constructor
  · rintro ⟨htype, -⟩ hname
    rw [hname] at htype
    exact absurd htype (by decide)
  · obtain ⟨type, scalar, hfits⟩ := a
    intro hname
    dsimp only at hname
    have htype : type ∈ ItemType.concreteAtomic ∧
        type.primitive?.bind ItemType.payload? = some scalar.payload := by
      cases scalar <;> simp only [Scalar.fits, Scalar.payload] at hfits ⊢ <;> revert hfits hname <;>
        cases type <;> decide
    exact ⟨htype.1, htype.2⟩

/-! ## Casts -/

variable {P : Atomic → Prop} {a b : Atomic} {target : ItemType} {ns : Namespaces}

theorem type_create {scalar : Scalar} :
    (create (.known target) scalar).All fun b => b.type = target := by
  rw [create, ofScalar?]
  split
  · next heq =>
    obtain ⟨hfits, heq⟩ := Option.dite_none_right_eq_some.1 heq
    exact .ok (Option.some.inj heq ▸ rfl)
  · exact .error

theorem type_makeInteger {i : Int} : (makeInteger target i).All fun b => b.type = target := by
  rw [makeInteger]
  split
  · exact type_create
  · exact .error

theorem type_ofLexical {raw : String} : (ofLexical ns target raw).All fun b => b.type = target := by
  have hleaf := eq_of_primitive? target
  unfold ofLexical
  dsimp only
  split
  case h_1 => exact .error
  case h_2 => split <;> first | exact type_create | exact .error
  case h_3 hp => exact .ok (hleaf .anyUri (by decide) hp).symm
  case h_4 hp =>
    have := (hleaf .boolean (by decide) hp).symm
    split
    · exact .ok this
    · split <;> first | exact .ok this | exact .error
  case h_5 hp =>
    split <;> first | exact .ok (hleaf .decimal (by decide) hp).symm | exact .error
  case h_6 =>
    split
    · split <;> first | exact type_makeInteger | exact .error
    · exact .error
  case h_7 hp => split <;> first | exact .ok (hleaf .double (by decide) hp).symm | exact .error
  case h_8 hp => split <;> first | exact .ok (hleaf .float (by decide) hp).symm | exact .error
  case h_9 hp => exact .map .true fun _ _ => (hleaf .qName (by decide) hp).symm
  case h_10 => exact .bind .true fun _ _ => type_create
  case h_11 | h_12 => split <;> first | exact type_create | exact .error
  case h_13 => exact .bind .true fun _ _ => type_create

theorem type_convert : (a.convert target).All fun b => b.type = target := by
  have hleaf := eq_of_primitive? target
  unfold convert
  dsimp only
  split
  case h_1 => exact .error
  case h_2 hp _ | h_3 hp _ | h_4 hp _ | h_5 hp _ => exact .ok (hleaf .boolean (by decide) hp).symm
  case h_6 hp => split <;> first | exact .ok (hleaf .double (by decide) hp).symm | exact .error
  case h_7 hp => split <;> first | exact .ok (hleaf .float (by decide) hp).symm | exact .error
  case h_8 hp => exact .map .true fun _ _ => (hleaf .decimal (by decide) hp).symm
  case h_9 => exact type_makeInteger
  case h_10 =>
    refine .bind .true fun _ _ => ?_
    split
    · exact type_makeInteger
    · exact .error
  case h_11 | h_12 | h_13 => exact type_create
  case h_14 =>
    rw [convertTemporal]
    split <;> first | exact type_create | exact .error
  case h_15 => exact .error

/-- A cast gives a value of its target, which is not abstract. -/
theorem type_castTo :
    (a.castTo ns target).All fun b => b.type = target ∧ target.isAbstract = false := by
  rw [castTo]
  split
  · exact .error
  split
  · exact .error
  next habstract =>
  have habstract := Bool.eq_false_iff.2 habstract
  split
  · next h => exact .ok ⟨h, habstract⟩
  split
  · next h => exact .ok ⟨h.symm, habstract⟩
  split
  · next h => exact .ok ⟨h.symm, habstract⟩
  split
  · exact type_ofLexical.imp fun _ h => ⟨h, habstract⟩
  split
  · exact .error
  · exact type_convert.imp fun _ h => ⟨h, habstract⟩

/-! ## Properties that are kept -/

/-- Whatever is made by an operation that does not take the name of a type, and whatever a value with the
property is cast to, has the property. -/
structure Kept (P : Atomic → Prop) : Prop where
  boolean : ∀ b, P (.boolean b)
  integer : ∀ i, P (.integer i)
  decimal : ∀ d, P (.decimal d)
  float : ∀ f, P (.float f)
  double : ∀ d, P (.double d)
  string : ∀ s, P (.string s)
  untyped : ∀ s, P (.untyped s)
  anyUri : ∀ s, P (.anyUri s)
  qName : ∀ q, P (.qName q)
  castTo : ∀ ns a target, P a → (castTo ns a target).All P

/-- The checked constructor makes nothing else as long as it is not asked for a notation. -/
theorem isConcrete_create {name : TypeName} (hname : name ≠ .known .notationName)
    (scalar : Scalar) : (create name scalar).All IsConcrete := by
  cases name with
  | unknown text => exact .error
  | known target =>
    refine type_create.imp fun a ha => isConcrete_iff.2 fun htype => hname ?_
    rw [← ha, htype]

theorem kept_isConcrete : Kept IsConcrete where
  boolean _ := isConcrete_iff.2 nofun
  integer _ := isConcrete_iff.2 nofun
  decimal _ := isConcrete_iff.2 nofun
  float _ := isConcrete_iff.2 nofun
  double _ := isConcrete_iff.2 nofun
  string _ := isConcrete_iff.2 nofun
  untyped _ := isConcrete_iff.2 nofun
  anyUri _ := isConcrete_iff.2 nofun
  qName _ := isConcrete_iff.2 nofun
  castTo _ _ _ _ := type_castTo.imp fun b hb => isConcrete_iff.2 fun hname => by
    rw [hb.1] at hname
    rw [hname] at hb
    exact absurd hb.2 (by decide)

namespace Kept

theorem numericOperand (hP : Kept P) (op : Operator) (ha : P a) : (numericOperand op a).All P := by
  have operand : ∀ a, P a → Except.All P
      (if a.isNumeric then return a else .error (notNumeric op a) : Except Error Atomic) := fun a ha => by
    split
    · exact .ok ha
    · exact .error
  rw [Atomic.numericOperand]
  split
  · exact .bind (hP.castTo _ _ _ ha) operand
  · exact operand a ha

theorem checkedInteger (hP : Kept P) (i : Int) : (checkedInteger i).All P := by
  rw [Atomic.checkedInteger]
  split
  · exact .ok (hP.integer i)
  · exact .error

theorem checkedDecimal (hP : Kept P) (d? : Option Number.Decimal) : (checkedDecimal d?).All P := by
  cases d? with
  | some d => exact .ok (hP.decimal d)
  | none => exact .error

theorem onIntegers (hP : Kept P) (op : Operator) (x y : Int) : ∀ r ∈ onIntegers op x y, r.All P := by
  intro r hr
  cases op <;> cases hr
  case add | subtract | multiply => exact hP.checkedInteger _
  case integerDivide =>
    split
    · exact .error
    · exact hP.checkedInteger _
  case modulo =>
    split
    · exact .error
    split
    · exact .error
    · exact hP.checkedInteger _

theorem onDecimals (hP : Kept P) (op : Operator) (x y : Number.Decimal) : (onDecimals op x y).All P := by
  cases op <;> rw [Atomic.onDecimals]
  case add | subtract | multiply => exact hP.checkedDecimal _
  case divide | modulo =>
    split
    · exact .error
    · exact hP.checkedDecimal _
  case integerDivide =>
    split
    · exact .error
    split
    · exact hP.checkedInteger _
    · exact .error

/-- Arithmetic gives numbers. -/
theorem arithmetic (hP : Kept P) (op : Operator) (a b : Atomic) : (arithmetic op a b).All P := by
  unfold Atomic.arithmetic
  dsimp only
  split
  · split
    · rw [divideDoubles]
      split
      · exact .error
      split
      · exact hP.checkedInteger _
      · exact .error
    · split
      · exact .ok (hP.double _)
      · exact .ok (hP.float _)
  · split
    · next x y _ _ =>
      cases h : Atomic.onIntegers op x y with
      | some r => exact hP.onIntegers op x y r h
      | none =>
        rw [Option.getD_none]
        split
        · exact hP.onDecimals op _ _
        · exact .error
    · split
      · exact hP.onDecimals op _ _
      · exact .error

theorem applySign (hP : Kept P) (sign : Sign) (ha : P a) : (applySign sign a).All P := by
  rw [Atomic.applySign]
  split
  · exact .bind .true fun _ _ => .ok (hP.double _)
  split
  · split
    · exact .ok ha
    · exact .ok (hP.double _)
  split
  · split
    · exact .ok (hP.integer _)
    · exact .error
  · exact .ok (hP.decimal _)
  · exact .ok (hP.double _)
  · exact .ok (hP.float _)
  · exact .ok (hP.double _)

end Kept

end Atomic

end XPath
