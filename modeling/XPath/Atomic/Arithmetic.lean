import XPath.Atomic.Cast

/-!
# Arithmetic

The numeric operators. If an operand is a double or a float the operation is done on doubles, and
rounded to a float unless a double takes part; two integers stay integers except under `div`; any
other exact pair is computed on decimals. Exact results that do not fit are errors.
-/

namespace XPath.Atomic

open Number

inductive Operator where
  | add | subtract | multiply | divide | integerDivide | modulo
  deriving Repr, DecidableEq

def Operator.label : Operator → String
  | .add => "+"
  | .subtract => "-"
  | .multiply => "*"
  | .divide => "div"
  | .integerDivide => "idiv"
  | .modulo => "mod"

def Operator.all : List Operator :=
  [.add, .subtract, .multiply, .divide, .integerDivide, .modulo]

def Operator.ofLabel? (text : String) : Option Operator := Operator.all.find? (·.label == text)

def divisionByZero : Error := ⟨.FOAR0001, "division by zero"⟩
def overflow : Error := ⟨.FOAR0002, "numeric operation overflows"⟩

def notNumeric (op : Operator) (a : Atomic) : Error :=
  .typeError ("the operands of the \"" ++ op.label ++
    "\" operator should be of type xs:numeric?, got " ++ a.type.label)

def notApplicable (op : Operator) (a b : Atomic) : Error :=
  .typeError ("cannot apply \"" ++ op.label ++ "\" to " ++ a.type.label ++ " and " ++ b.type.label)

/-- An operand as a number; an untyped value is read as a double. -/
def numericOperand (op : Operator) (a : Atomic) : Except Error Atomic := do
  let a ← if a.isInstanceOf .untypedAtomic then a.cast .double else pure a
  if a.isNumeric then return a else .error (notNumeric op a)

/-- The operation on doubles, integer division apart. -/
def onDoubles (op : Operator) (x y : Double) : Double :=
  match op with
  | .add => x + y
  | .subtract => x - y
  | .multiply => x * y
  | .divide => x / y
  | _ => x.rem y

def divideDoubles (x y : Double) : Except Error Atomic :=
  if y.isZero then .error divisionByZero
  else match (x / y).truncate? with
    | some q => if fitsInteger q then .ok (integer q) else .error overflow
    | none => .error overflow

def checkedInteger (i : Int) : Except Error Atomic :=
  if fitsInteger i then .ok (integer i) else .error overflow

/-- The operation on integers; `div` is none, it leaves the integers. -/
def onIntegers (op : Operator) (x y : Int) : Option (Except Error Atomic) :=
  match op with
  | .add => some (checkedInteger (x + y))
  | .subtract => some (checkedInteger (x - y))
  | .multiply => some (checkedInteger (x * y))
  | .integerDivide => some (if y = 0 then .error divisionByZero else checkedInteger (x.tdiv y))
  | .modulo =>
    some (if y = 0 then .error divisionByZero
      else if x = minInteger ∧ y = -1 then .error overflow
      else checkedInteger (x.tmod y))
  | .divide => none

def checkedDecimal : Option Number.Decimal → Except Error Atomic
  | some d => .ok (decimal d)
  | none => .error overflow

def onDecimals (op : Operator) (x y : Number.Decimal) : Except Error Atomic :=
  match op with
  | .add => checkedDecimal (x.add? y)
  | .subtract => checkedDecimal (x.sub? y)
  | .multiply => checkedDecimal (x.mul? y)
  | .divide => if y.isZero then .error divisionByZero else checkedDecimal (x.div? y)
  | .integerDivide =>
    if y.isZero then .error divisionByZero
    else match x.div? y with
      | some q => checkedInteger q.truncate
      | none => .error overflow
  | .modulo => if y.isZero then .error divisionByZero else checkedDecimal (x.rem? y)

/-- The result of an operator on two numeric values. -/
def arithmetic (op : Operator) (a b : Atomic) : Except Error Atomic :=
  let either (t : ItemType) := a.isInstanceOf t || b.isInstanceOf t
  if either .double || either .float then
    let x := a.double?.getD .nan
    let y := b.double?.getD .nan
    if op = .integerDivide then divideDoubles x y
    else
      let r := onDoubles op x y
      .ok (if either .double then double r else float r.narrow)
  else
    let exact := match a.asDecimal?, b.asDecimal? with
      | some x, some y => onDecimals op x y
      | _, _ => .error (notApplicable op a b)
    match a.scalar, b.scalar with
    | .integer x, .integer y => (onIntegers op x y).getD exact
    | _, _ => exact

/-- The signs. -/
inductive Sign where
  | plus | minus
  deriving Repr, DecidableEq

/-- The result of a sign on a value; what is not a number becomes NaN. -/
def applySign (sign : Sign) (a : Atomic) : Except Error Atomic :=
  if a.isInstanceOf .untypedAtomic then do
    let d := (← a.cast .double).double?.getD .nan
    return double (if sign = .minus then -d else d)
  else if sign = .plus then .ok (if a.isNumeric then a else double .nan)
  else match a.scalar with
    | .integer i =>
      if fitsInteger (-i) then .ok (integer (-i))
      else .error ⟨.FOAR0002, "integer negation overflows"⟩
    | .decimal d => .ok (decimal (-d))
    | .double d => .ok (double (-d))
    | .float f => .ok (float (-f))
    | _ => .ok (double .nan)

end XPath.Atomic
