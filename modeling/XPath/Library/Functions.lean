import XPath.Json
import XPath.Library.Arrays
import XPath.Nodes.Equality
import XPath.Nodes.Order
import XPath.Nodes.Search

/-!
# What the built-in functions do

Arguments arrive converted to the declared types. A reply is a producer; an error that does not wait
for the reply to be read is raised at once.
-/

namespace XPath

open Producer

/-! ## Sequences -/

/-- The string value of an optional item. -/
def stringOf (access : Access) (argument : Producer) : Producer :=
  withAll argument fun items =>
    match items with
    | [] => .ok (singleton (.string ""))
    | .atomic a :: _ => .ok (singleton (.string a.text))
    | .node n :: _ => .ok (perform access n.typedValue fun a => singleton (.string a.text))
    | v :: _ => .error ⟨.FOTY0013, "fn:string is not defined for " ++ v.typeLabel⟩

/-- The size of the context sequence, known or found by reading it. -/
def lastPosition (s : Shared) : Producer :=
  .length s fun
    | some n => singleton (.integer n)
    | none => drain (reader s) fun items => singleton (.integer items.length)

/-- Whether two sequences are equal item by item. -/
def equalSequences (access : Access) (a b : Producer) : Producer :=
  share a fun a => share b fun b => call (.equal access [.members a b 0])

/-! ## Names of nodes -/

namespace NamePart

/-- The name of the function, for messages. -/
def functionName : NamePart → String
  | .whole => "fn:name"
  | .localPart => "fn:local-name"
  | .uri => "fn:namespace-uri"
  | .qualified => "fn:node-name"

/-- What is reported of a name; nothing stands for a node without one. -/
def report (part : NamePart) (name : Option QName) : Option Atomic :=
  match part with
  | .whole => some (.string ((name.map QName.label).getD ""))
  | .localPart => some (.string ((name.map (·.localName)).getD ""))
  | .uri => some (.anyUri ((name.bind (·.uri)).getD ""))
  | .qualified => name.map .qName

/-- No node counts as a node without a name. -/
def reply (part : NamePart) (argument : Producer) : Producer :=
  withFirsts [argument] fun firsts => do
    let n ← expectNode firsts.head?.join
    return match part.report (n.bind (·.name)) with
      | some a => singleton (.atomic a)
      | none => done

end NamePart

/-! ## Trees -/

/-- The root of the tree of an optional node. -/
def rootOf (access : Access) (argument : Producer) : Producer :=
  withFirsts [argument] fun firsts => do
    match ← expectNode firsts.head?.join with
    | none => return done
    | some n => return perform access n.lineage fun chain => singleton (.node (chain.headD n))

/-- Nodes chosen by how they are nested. -/
def selectNested (access : Access) (argument : Producer)
    (select : List (OrderKey × Node) → List Node) : Producer :=
  withAll argument fun items => do
    let nodes ← items.mapM fun v => expectNode (some v)
    return perform access (Node.sortWithKeys (nodes.filterMap (fun n => n))) fun sorted =>
      ofList ((select sorted).map .node)

/-- Elements found by an attribute; without a node to start from there are none. -/
def searchFrom (access : Access) (lookup : IdLookup) (ids start : Producer) : Producer :=
  first start fun
    | some (.node n) => drain ids fun items =>
      let values := (items.filterMap Value.atomic?).map Atomic.text
      let wanted := match lookup with
        | .id => values.flatMap wordsOf
        | .idref => values
      perform access (IdSearch.run lookup wanted n) fun found => ofList (found.map .node)
    | _ => done

/-! ## JSON -/

mutual

/-- A JSON value as items; null is no item. -/
def Json.items : Json → List Value
  | .null => []
  | .boolean b => [.boolean b]
  | .number d => [.atomic (.double d)]
  | .string s => [.string s]
  | .array members => [.array (Json.memberItems members)]
  | .object entries => [.map (Json.entryItems entries)]

def Json.memberItems : List Json → List Shared
  | [] => []
  | m :: rest => .listed (Json.items m) :: Json.memberItems rest

def Json.entryItems : List (String × Json) → Entries
  | [] => []
  | (key, value) :: rest => (.string key, .listed (Json.items value)) :: Json.entryItems rest

end

def malformedJson : Error := ⟨.FOJS0001, "invalid JSON"⟩

def parseJson (text : String) : Reply :=
  match Json.read? text.toList with
  | some json => .ok (ofList json.items)
  | none => .error malformedJson

/-! ## Tracing -/

/-- How the log shows an item. -/
def Value.logged : Value → String
  | .atomic a => a.text
  | .node n =>
    match n.name with
    | some q => n.kind.label ++ "[" ++ q.label ++ "]"
    | none => n.kind.label
  | v => v.typeLabel

/-- The items unchanged, after they have all been logged under a label. -/
def traced (label : String) (argument : Producer) : Producer :=
  drain argument fun items =>
    .log label (", ".intercalate (items.map Value.logged)) (ofList items)

/-! ## Look-up -/

/-- The single atomic value that a look-up is made with. -/
def soleKey (items : List Value) : Except Error Atomic :=
  match items with
  | [.atomic a] => .ok a
  | _ => .error (.typeError "lookup expects a single atomic key")

def lookUpKey (entries : Entries) (key : Atomic) : Producer :=
  match entries.get? key with
  | some s => reader s
  | none => done

/-! ## The functions -/

namespace Builtin

def run (f : Builtin) (c : CallContext) (arguments : List Producer) : Reply :=
  let access := c.access
  match f, arguments with
  | constant b, [] => .ok (singleton (.boolean b))
  | boolean, [a] => .ok (truth a fun b => singleton (.boolean b))
  | not, [a] => .ok (truth a fun b => singleton (.boolean !b))
  | count, [a] => .ok (drain a fun items => singleton (.integer items.length))
  | empty, [a] => .ok (first a fun v => singleton (.boolean v.isNone))
  | «exists», [a] => .ok (first a fun v => singleton (.boolean v.isSome))
  | position, [] => do
    let _ ← c.contextItem "fn:position"
    return singleton (.integer c.context.position)
  | last, [] =>
    match c.context.sequence with
    | some s => .ok (lastPosition s)
    | none => .error (.missingContext "fn:last")
  | deepEqual, [a, b] => .ok (equalSequences access a b)
  | data true, [] => do return atomize access (singleton (← c.contextItem "fn:data"))
  | data false, [a] => .ok (atomize access a)
  | string true, [] => do return stringOf access (singleton (← c.contextItem "fn:string"))
  | string false, [a] => .ok (stringOf access a)
  | nameOf part true, [] => do return part.reply (← c.contextNode part.functionName)
  | nameOf part false, [a] => .ok (part.reply a)
  | root true, [] => do return rootOf access (← c.contextNode "fn:root")
  | root false, [a] => .ok (rootOf access a)
  | innermost, [a] => .ok (selectNested access a Node.innermost)
  | outermost, [a] => .ok (selectNested access a (Node.outermost none))
  | search lookup true, [ids] => do
    let start ← c.contextItem ("fn:" ++ lookup.attributeName)
    return searchFrom access lookup ids (singleton start)
  | search lookup false, [ids, start] => .ok (searchFrom access lookup ids start)
  | parseJson, [a] => .ok (withFirsts [a] fun firsts =>
    match firsts.head?.join with
    | none => .ok done
    | v => do XPath.parseJson (← expectAtomic v).text)
  | trace false, [a] => .ok (traced "" a)
  | trace true, [a, label] => .ok (withFirsts [label] fun firsts =>
    match firsts.head?.join with
    | some (.atomic l) => .ok (traced l.text a)
    | _ => .error (.typeError "fn:trace expects an xs:string label"))
  | mapSize, [m] => .ok (withFirsts [m] fun firsts => do
    return singleton (.integer (← expectMap firsts.head?.join).length))
  | mapKeys, [m] => .ok (withFirsts [m] fun firsts => do
    return ofList ((← expectMap firsts.head?.join).map fun (k, _) => .atomic k))
  | mapContains, [m, k] => .ok (withFirsts [m, k] fun firsts => do
    let entries ← expectMap firsts.head?.join
    let key ← expectAtomic firsts[1]?.join
    return singleton (.boolean (entries.contains key)))
  | mapGet, [m, k] => .ok (withFirsts [m, k] fun firsts => do
    let entries ← expectMap firsts.head?.join
    return lookUpKey entries (← expectAtomic firsts[1]?.join))
  | arraySize, [a] => .ok (withFirsts [a] fun firsts => do
    return singleton (.integer (← expectArray firsts.head?.join).length))
  | arrayGet, [a, p] => .ok (withFirsts [a, p] fun firsts => do
    let members ← expectArray firsts.head?.join
    return reader (← Members.get members (← expectInteger firsts[1]?.join)))
  | arrayPut, [a, p, m] => .ok (share m fun m => withFirsts [a, p] fun firsts => do
    let members ← expectArray firsts.head?.join
    Reply.array (← Members.put members (← expectInteger firsts[1]?.join) m))
  | arrayAppend, [a, m] => .ok (share m fun m => withFirsts [a] fun firsts => do
    Reply.array ((← expectArray firsts.head?.join) ++ [m]))
  | arraySubarray false, [a, s] => .ok (withFirsts [a, s] fun firsts => do
    let members ← expectArray firsts.head?.join
    Reply.array (← Members.subarrayFrom members (← expectInteger firsts[1]?.join)))
  | arraySubarray true, [a, s, l] => .ok (withFirsts [a, s, l] fun firsts => do
    let members ← expectArray firsts.head?.join
    let start ← expectInteger firsts[1]?.join
    Reply.array (← Members.subarray members start (← expectInteger firsts[2]?.join)))
  | arrayRemove, [a, ps] => .ok (withFirsts [a] fun firsts => do
    let members ← expectArray firsts.head?.join
    return withAll ps fun items => do
      let positions ← items.mapM fun v => expectInteger (some v)
      Reply.array (← Members.remove members positions))
  | arrayInsertBefore, [a, p, m] => .ok (share m fun m => withFirsts [a, p] fun firsts => do
    let members ← expectArray firsts.head?.join
    Reply.array (← Members.insertBefore members (← expectInteger firsts[1]?.join) m))
  | arrayHead, [a] => .ok (withFirsts [a] fun firsts => do
    return reader (← Members.get (← expectArray firsts.head?.join) 1))
  | arrayTail, [a] => .ok (withFirsts [a] fun firsts => do
    Reply.array (← Members.remove (← expectArray firsts.head?.join) [1]))
  | arrayReverse, [a] => .ok (withFirsts [a] fun firsts => do
    Reply.array (← expectArray firsts.head?.join).reverse)
  | arrayJoin, [as] => .ok (withAll as fun items => do
    let arrays ← items.mapM fun v => expectArray (some v)
    Reply.array arrays.flatten)
  | arrayForEach, [a, f] => .ok (withFirsts [a, f] fun firsts => do
    let members ← expectArray firsts.head?.join
    let f ← expectFunction firsts[1]?.join
    return applyAll f c (members.map fun m => [reader m]) fun results =>
      singleton (.array results))
  | arrayFilter, [a, f] => .ok (withFirsts [a] fun firsts => do
    let members ← expectArray firsts.head?.join
    return withFirsts [f] fun firsts => do
      return Members.filter members (← expectFunction firsts.head?.join) c)
  | arrayFoldLeft, [a, zero, f] => .ok (withFirsts [a, f] fun firsts => do
    let f ← expectFunction firsts[1]?.join
    return Members.foldLeft f c zero (← expectArray firsts.head?.join))
  | arrayFoldRight, [a, zero, f] => .ok (withFirsts [a, f] fun firsts => do
    let f ← expectFunction firsts[1]?.join
    return Members.foldRight f c zero (← expectArray firsts.head?.join).reverse)
  | arrayForEachPair, [a, b, f] => .ok (withFirsts [a, b, f] fun firsts => do
    let left ← expectArray firsts.head?.join
    let right ← expectArray firsts[1]?.join
    let f ← expectFunction firsts[2]?.join
    return applyAll f c ((left.zip right).map fun (x, y) => [reader x, reader y]) fun results =>
      singleton (.array results))
  | arraySort, [a] => .ok (withFirsts [a] fun firsts => do
    let members ← expectArray firsts.head?.join
    return Members.withKeys access members fun keyed =>
      ofExcept ((Members.sort keyed).map fun sorted => singleton (.array sorted)))
  | arrayFlatten, [a] => .ok (flatten a)
  | cast target, [a] => .ok (withFirsts [a] fun firsts =>
    match firsts.head?.join with
    | none => .ok done
    | v => do return singleton (.atomic (← (← expectAtomic v).castTo c.namespaces target)))
  | _, arguments => .error (wrongArguments arguments.length)

end Builtin

/-- What a host function does. -/
def Behaviour.run (b : Behaviour) (c : CallContext) (arguments : List Producer) : Reply :=
  match b with
  | .concatenate => .ok (concat arguments)
  | .reverse => .ok (concat arguments.reverse)
  | .ignore => .ok done
  | .typeNames => .ok (mapItems (concat arguments) fun v => .ok (.string v.typeLabel))
  | .contextItem => .ok (match c.context.item with
    | some v => singleton v
    | none => done)
  | .raise e => .error e

namespace Function

def wrongArity (f : Function) (got : Nat) : Error :=
  .typeError ("expected arity of function " ++ f.label ++ " to be " ++ toString f.arity ++
    ", got " ++ toString got ++ " arguments")

def missingArgument : Error := .unidentified "missing placeholder argument"

/-- The full argument list of a function with bound slots: readers of what is bound, and the
supplied arguments in the open slots. -/
def fill : List (Option Shared) → List Producer → Except Error (List Producer)
  | [], _ => .ok []
  | some s :: slots, supplied => do return reader s :: (← fill slots supplied)
  | none :: slots, p :: supplied => do return p :: (← fill slots supplied)
  | none :: _, [] => .error missingArgument

/-- Calls a function. The number of arguments is checked and their conversion set up at once;
everything else waits until the result is read, unless the function says otherwise. -/
def invoke (f : Function) (c : CallContext) (arguments : List Producer) : Reply :=
  if arguments.length ≠ f.arity then .error (f.wrongArity arguments.length)
  else do
    let arguments ← convertArguments c.access f.label f.signature.parameters arguments
    match f with
    | builtin b => b.run c arguments
    | extension e => e.behaviour.run c arguments
    | bound inner slots => inner.invoke c (← fill slots arguments)
    | entryOf entries => withAll' arguments fun key => .ok (lookUpKey entries key)
    | memberOf members => withAll' arguments fun position => do
      return reader (← Members.get members (← position.expectInteger))
where
  /-- Reads the only argument as a key. -/
  withAll' (arguments : List Producer) (next : Atomic → Reply) : Reply :=
    match arguments with
    | [a] => .ok (withAll a fun items => do next (← soleKey items))
    | _ => .error (wrongArguments arguments.length)

end Function

end XPath
