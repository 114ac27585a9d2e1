import XPath.Lazy.Atomize

/-!
# Argument conversion

An argument is converted to the declared type of its parameter as it is read: atomized if the type
is atomic, each item checked, and its atomic values cast or promoted where the rules allow. With at
most one item allowed, that item is held back until the argument is known to end.
-/

namespace XPath

/-- What a parameter is called in messages. -/
structure ParameterPlace where
  function : String
  position : Nat
  deriving Repr, DecidableEq

namespace ParameterPlace

def wrongCount (p : ParameterPlace) (type : SequenceType) (got : Nat) : Error :=
  .typeError ("multiplicity of argument " ++ toString p.position ++ " of " ++ p.function ++
    " is incorrect: expected " ++ type.label ++ ", got " ++ toString got ++ " item(s)")

def wrongType (p : ParameterPlace) (type : SequenceType) (v : Value) : Error :=
  .typeError ("argument " ++ toString p.position ++ " must be " ++ type.label ++ ", got " ++
    v.typeLabel)

/-- A type error names the argument; other errors stay as they are. -/
def locate (p : ParameterPlace) (e : Error) : Error :=
  if e.code = .XPTY0004 then
    .typeError ("argument " ++ toString p.position ++ ": " ++ e.message)
  else e

end ParameterPlace

/-- Pairs of types of which the first is promoted to the second. -/
def promotes (source target : ItemType) : Bool :=
  match target with
  | .double => source.isSubtypeOf .decimal || source.isSubtypeOf .float
  | .float => source.isSubtypeOf .decimal
  | .string => source.isSubtypeOf .anyUri
  | _ => false

/-- An atomic value as an instance of the expected type. -/
def Atomic.convertTo (a : Atomic) (expected : ItemType) : Except Error Atomic :=
  if a.isInstanceOf expected then .ok a
  else if a.isInstanceOf .untypedAtomic || promotes a.type expected then a.cast expected
  else .error (.typeError ("expected " ++ expected.label ++ ", got " ++ a.type.label))

/-- An item as an instance of the expected type. -/
def Value.convertTo (v : Value) (type : SequenceType) (place : ParameterPlace) :
    Except Error Value :=
  match v, type.itemType with
  | .atomic a, .known t =>
    if t.isAtomic then
      match a.convertTo t with
      | .ok a => .ok (.atomic a)
      | .error e => .error (place.locate e)
    else if a.isInstanceOf t then .ok v
    else .error (place.wrongType type v)
  | v, t => if t.admits v.itemType then .ok v else .error (place.wrongType type v)

/-- An argument as a sequence of the declared type. -/
def Producer.convert (access : Access) (type : SequenceType) (place : ParameterPlace)
    (argument : Producer) : Producer :=
  if type.itemType = .known .item ∧ (type.occurrence = .zeroOrMore ∨ type.occurrence = .oneOrMore)
  then argument
  else
    let source := if type.isAtomic then atomize access argument else argument
    let finish (count : Nat) (held : List Value) : Producer :=
      if type.occurrence.allows count then ofList held else fail (place.wrongCount type count)
    if type.occurrence.isSingle then
      let step (i : Nat) (v : Value) : Gathering :=
        if 0 < i then .fail (place.wrongCount type (i + 1))
        else match v.convertTo type place with
          | .ok v => .more [v]
          | .error e => .fail e
      gather (fun i _ v => step i v) 0 [] source fun held => finish held.length held
    else
      forEach 0 source
        (fun _ v => match v.convertTo type place with
          | .ok v => singleton v
          | .error e => fail e)
        fun count => finish count []

/-- The arguments of a call, converted to the declared types. -/
def convertArguments (access : Access) (function : String) (types : List SequenceType)
    (arguments : List Producer) : Except Error (List Producer) :=
  if types.length = arguments.length then
    .ok ((types.zip arguments).zipIdx.map fun ((type, argument), i) =>
      argument.convert access type ⟨function, i + 1⟩)
  else .error (.typeError ("expected argument list of " ++ function ++ " to have " ++
    toString types.length ++ " entries, got " ++ toString arguments.length))

end XPath
