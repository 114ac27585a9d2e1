import XPath.Expr.Meaning

/-!
# Constructors and calls

Members of arrays and values of maps are evaluated when the constructor is and read when somebody
reads them. The arguments of a call are evaluated once the function is known.
-/

namespace XPath

open Producer

namespace Meaning

/-! ## Arrays and maps -/

def squareArray (operands : List Meaning) : Meaning := fun c access => do
  let members ← operands.mapM fun m => m c access
  return shareAll members fun members => singleton (.array members)

def curlyArray (operands : List Meaning) : Meaning := fun c access =>
  match operands with
  | [] => .ok (singleton (.array []))
  | m :: _ => do
    return drain (← m c access) fun items => singleton (.arrayOfItems items)

def loneKey : Error := .unidentified "map constructor entry without a value"

def notOneKey : Error := .typeError "a map key must be a single atomic value"

/-- The single atomic value of a key. -/
def keyOf (access : Access) (key : Producer) : Producer :=
  withAll (atomize access key) fun
    | [.atomic a] => .ok (singleton (.atomic a))
    | _ => .error notOneKey

/-- Evaluates keys and values by turns. -/
def entries (c : Context) (access : Access) :
    List Meaning → Except Error (List (Producer × Producer))
  | [] => .ok []
  | [_] => .error loneKey
  | key :: value :: rest => do
    let key ← key c access
    let value ← value c access
    return (key, value) :: (← entries c access rest)

def map (operands : List Meaning) : Meaning := fun c access => do
  let entries ← entries c access operands
  return shareAll (entries.map (·.2)) fun values =>
    withAll (concat (entries.map fun (key, _) => keyOf access key)) fun keys => do
      return singleton (← Value.mapOf ((keys.filterMap Value.atomic?).zip values))

/-! ## Calls -/

def notOneFunction (got : Nat) : Error :=
  .typeError ("expected base expression to evaluate to a sequence with a single item, got " ++
    toString got ++ " items")

def wrongSlots (f : Function) (slots : Nat) : Error :=
  .typeError ("expected arity of function " ++ f.label ++ " to be " ++ toString slots ++
    ", got function with arity of " ++ toString f.arity)

/-- The function that a call is made to. -/
def calledFunction (slots : Nat) : List Value → Except Error Function
  | [v] => do
    let f ← v.callable
    if f.arity = slots then return f else throw (wrongSlots f slots)
  | items => .error (notOneFunction items.length)

/-- Puts the supplied arguments into their slots. -/
def fillSlots : List Bool → List Shared → List (Option Shared)
  | [], _ => []
  | true :: slots, s :: rest => some s :: fillSlots slots rest
  | _ :: slots, rest => none :: fillSlots slots rest

/-- A call without all its arguments is a function of those that are open. -/
def call (static? : Option StaticContext) (slots : List Bool) (operands : List Meaning) : Meaning :=
  fun c access =>
    match static? with
    | none => .error notPrepared
    | some static => do
      let function ← match operands with
        | [] => .ok done
        | f :: _ => f c access
      return withAll function fun items => do
        let f ← calledFunction slots.length items
        let arguments ← (operands.drop 1).mapM fun m => m c access
        if slots.all (fun supplied => supplied) then
          f.invoke ⟨c, access, static.namespaces⟩ arguments
        else
          return shareAll arguments fun bound =>
            singleton (.function (.bound f (fillSlots slots bound)))

end Meaning

end XPath
