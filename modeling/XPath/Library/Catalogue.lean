import XPath.Error
import XPath.Types

/-!
# The functions on offer

The built-in functions with their signatures, and the functions that a host may add. A host function
is described by what it does with its arguments, so function values stay plain data.
-/

namespace XPath

/-- The types of a function's parameters and of its result. -/
structure Signature where
  name : Option ExpandedName
  parameters : List SequenceType
  result : SequenceType
  deriving Repr, DecidableEq

namespace Signature

def arity (s : Signature) : Nat := s.parameters.length

/-- The name and the number of parameters. -/
def label (s : Signature) : String :=
  (match s.name with
    | some n => n.label
    | none => "(anonymous)") ++ "#" ++ toString s.arity

end Signature

/-- What a name accessor reports of a node. -/
inductive NamePart where
  | whole | localPart | uri | qualified
  deriving Repr, DecidableEq

/-- Which attribute a search looks at. -/
inductive IdLookup where
  | id | idref
  deriving Repr, DecidableEq

/-- The built-in functions. One that may take the context item in place of an argument comes in two
forms; `implicit` marks the shorter one. -/
inductive Builtin where
  | constant (value : Bool)
  | boolean | not | count | empty | exists | position | last | deepEqual
  | data (implicit : Bool)
  | string (implicit : Bool)
  | nameOf (part : NamePart) (implicit : Bool)
  | root (implicit : Bool)
  | innermost | outermost
  | search (lookup : IdLookup) (implicit : Bool)
  | parseJson
  | trace (labelled : Bool)
  | mapSize | mapKeys | mapContains | mapGet
  | arraySize | arrayGet | arrayPut | arrayAppend
  | arraySubarray (withLength : Bool)
  | arrayRemove | arrayInsertBefore | arrayHead | arrayTail | arrayReverse | arrayJoin
  | arrayForEach | arrayFilter | arrayFoldLeft | arrayFoldRight | arrayForEachPair | arraySort
  | arrayFlatten
  /-- The constructor function of an atomic type. -/
  | cast (target : ItemType)
  deriving Repr, DecidableEq

namespace Builtin

private def sig (uri localName : String) (parameters : List String) (result : String) : Signature :=
  ⟨some (.inNamespace uri localName), parameters.map .ofString, .ofString result⟩

def signature : Builtin → Signature
  | constant b => sig Uri.functions (if b then "true" else "false") [] "xs:boolean"
  | boolean => sig Uri.functions "boolean" ["item()*"] "xs:boolean"
  | not => sig Uri.functions "not" ["item()*"] "xs:boolean"
  | count => sig Uri.functions "count" ["item()*"] "xs:integer"
  | empty => sig Uri.functions "empty" ["item()*"] "xs:boolean"
  | «exists» => sig Uri.functions "exists" ["item()*"] "xs:boolean"
  | position => sig Uri.functions "position" [] "xs:integer"
  | last => sig Uri.functions "last" [] "xs:integer"
  | deepEqual => sig Uri.functions "deep-equal" ["item()*", "item()*"] "xs:boolean"
  | data implicit => sig Uri.functions "data" (if implicit then [] else ["item()*"])
      "xs:anyAtomicType*"
  | string implicit => sig Uri.functions "string" (if implicit then [] else ["item()?"]) "xs:string"
  | nameOf part implicit =>
    let parameters := if implicit then [] else ["node()?"]
    match part with
    | .whole => sig Uri.functions "name" parameters "xs:string"
    | .localPart => sig Uri.functions "local-name" parameters "xs:string"
    | .uri => sig Uri.functions "namespace-uri" parameters "xs:anyURI"
    | .qualified => sig Uri.functions "node-name" parameters "xs:QName?"
  | root implicit =>
    if implicit then sig Uri.functions "root" [] "node()"
    else sig Uri.functions "root" ["node()?"] "node()?"
  | innermost => sig Uri.functions "innermost" ["node()*"] "node()*"
  | outermost => sig Uri.functions "outermost" ["node()*"] "node()*"
  | search lookup implicit =>
    let parameters := if implicit then ["xs:string*"] else ["xs:string*", "node()"]
    match lookup with
    | .id => sig Uri.functions "id" parameters "element()*"
    | .idref => sig Uri.functions "idref" parameters "node()*"
  | parseJson => sig Uri.functions "parse-json" ["xs:string?"] "item()?"
  | trace labelled => sig Uri.functions "trace"
      (if labelled then ["item()*", "xs:string"] else ["item()*"]) "item()*"
  | mapSize => sig Uri.maps "size" ["map(*)"] "xs:integer"
  | mapKeys => sig Uri.maps "keys" ["map(*)"] "xs:anyAtomicType*"
  | mapContains => sig Uri.maps "contains" ["map(*)", "xs:anyAtomicType"] "xs:boolean"
  | mapGet => sig Uri.maps "get" ["map(*)", "xs:anyAtomicType"] "item()*"
  | arraySize => sig Uri.arrays "size" ["array(*)"] "xs:integer"
  | arrayGet => sig Uri.arrays "get" ["array(*)", "xs:integer"] "item()*"
  | arrayPut => sig Uri.arrays "put" ["array(*)", "xs:integer", "item()*"] "array(*)"
  | arrayAppend => sig Uri.arrays "append" ["array(*)", "item()*"] "array(*)"
  | arraySubarray withLength => sig Uri.arrays "subarray"
      (if withLength then ["array(*)", "xs:integer", "xs:integer"] else ["array(*)", "xs:integer"])
      "array(*)"
  | arrayRemove => sig Uri.arrays "remove" ["array(*)", "xs:integer*"] "array(*)"
  | arrayInsertBefore =>
    sig Uri.arrays "insert-before" ["array(*)", "xs:integer", "item()*"] "array(*)"
  | arrayHead => sig Uri.arrays "head" ["array(*)"] "item()*"
  | arrayTail => sig Uri.arrays "tail" ["array(*)"] "array(*)"
  | arrayReverse => sig Uri.arrays "reverse" ["array(*)"] "array(*)"
  | arrayJoin => sig Uri.arrays "join" ["array(*)*"] "array(*)"
  | arrayForEach => sig Uri.arrays "for-each" ["array(*)", "function(*)"] "array(*)"
  | arrayFilter => sig Uri.arrays "filter" ["array(*)", "function(*)"] "array(*)"
  | arrayFoldLeft => sig Uri.arrays "fold-left" ["array(*)", "item()*", "function(*)"] "item()*"
  | arrayFoldRight => sig Uri.arrays "fold-right" ["array(*)", "item()*", "function(*)"] "item()*"
  | arrayForEachPair =>
    sig Uri.arrays "for-each-pair" ["array(*)", "array(*)", "function(*)"] "array(*)"
  | arraySort => sig Uri.arrays "sort" ["array(*)"] "array(*)"
  | arrayFlatten => sig Uri.arrays "flatten" ["item()*"] "item()*"
  | cast target => sig Uri.schema (String.ofList (target.label.toList.drop 3))
      ["xs:anyAtomicType?"] (target.label ++ "?")

private def bothForms (f : Bool → Builtin) : List Builtin := [f true, f false]

/-- Every built-in function. -/
def all : List Builtin :=
  [constant true, constant false, boolean, not, count, empty, «exists», position, last] ++
    [deepEqual] ++ bothForms data ++ bothForms string ++
    [NamePart.whole, .localPart, .uri, .qualified].flatMap (fun p => bothForms (nameOf p)) ++
    bothForms root ++ [innermost, outermost] ++ bothForms (search .id) ++
    bothForms (search .idref) ++ [parseJson] ++ bothForms trace ++
    [mapSize, mapKeys, mapContains, mapGet, arraySize, arrayGet, arrayPut, arrayAppend] ++
    bothForms arraySubarray ++
    [arrayRemove, arrayInsertBefore, arrayHead, arrayTail, arrayReverse, arrayJoin, arrayForEach,
      arrayFilter, arrayFoldLeft, arrayFoldRight, arrayForEachPair, arraySort, arrayFlatten] ++
    ItemType.concreteAtomic.map cast

end Builtin

/-- What a host function does with its converted arguments. -/
inductive Behaviour where
  /-- All arguments, one after the other. -/
  | concatenate
  /-- All arguments, the last one first. -/
  | reverse
  /-- Nothing; no argument is read. -/
  | ignore
  /-- The type of every item of every argument. -/
  | typeNames
  /-- The context item, if there is one. -/
  | contextItem
  /-- An error, at once. -/
  | raise (e : Error)
  deriving Repr, DecidableEq

/-- A function that the host adds. -/
structure Extension where
  name : ExpandedName
  parameters : List SequenceType
  result : SequenceType
  behaviour : Behaviour
  deriving Repr, DecidableEq

def Extension.signature (e : Extension) : Signature := ⟨some e.name, e.parameters, e.result⟩

end XPath
