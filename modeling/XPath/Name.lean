import XPath.Text.Blank
import XPath.Text.Letter

/-!
# Names

Qualified and expanded names, the character rules of the name types, and namespace bindings. The
qualifier of a name is for display only: two qualified names are the same when their expanded names
are equal.
-/

namespace XPath

/-- A namespace and a local name. -/
structure ExpandedName where
  uri : Option String
  localName : String
  deriving Repr, DecidableEq

/-- A name as written, with the namespace it stands for. -/
structure QName where
  qualifier : Option String
  localName : String
  uri : Option String
  deriving Repr, DecidableEq

namespace ExpandedName

def inNamespace (uri localName : String) : ExpandedName := ⟨some uri, localName⟩

def label (n : ExpandedName) : String :=
  match n.uri with
  | some uri => "Q\x7b" ++ uri ++ "\x7d" ++ n.localName
  | none => n.localName

end ExpandedName

namespace QName

def expanded (q : QName) : ExpandedName := ⟨q.uri, q.localName⟩

/-- Equal up to the qualifier. -/
def sameName (a b : QName) : Bool := a.localName == b.localName && a.uri == b.uri

theorem sameName_iff (a b : QName) : a.sameName b = true ↔ a.expanded = b.expanded := by
  simp [sameName, expanded, and_comm]

/-- The name as written; an empty qualifier is not shown. -/
def label (q : QName) : String :=
  match q.qualifier with
  | some p => if p = "" then q.localName else p ++ ":" ++ q.localName
  | none => q.localName

end QName

/-! ## Well-known namespaces -/

namespace Uri

def xml : String := "http://www.w3.org/XML/1998/namespace"
def xmlns : String := "http://www.w3.org/2000/xmlns/"
def schema : String := "http://www.w3.org/2001/XMLSchema"
def functions : String := "http://www.w3.org/2005/xpath-functions"
def maps : String := "http://www.w3.org/2005/xpath-functions/map"
def arrays : String := "http://www.w3.org/2005/xpath-functions/array"
def math : String := "http://www.w3.org/2005/xpath-functions/math"
def errors : String := "http://www.w3.org/2005/xqt-errors"

end Uri

/-! ## Character rules -/

namespace Text

def isNameMark (c : Char) : Bool := c == '_' || c == '-' || c == '.' || c == '\xB7'

/-- A letter or underscore, then letters, numerals and name marks. -/
def isNCName : List Char → Bool
  | [] => false
  | c :: rest => (isLetter c || c == '_') && rest.all fun c => isLetterOrNumeral c || isNameMark c

/-- Name parts joined by colons; a part may be empty. -/
def isName (s : List Char) : Bool :=
  match s with
  | [] => false
  | c :: _ =>
    (splitAt ':' s).all (fun part => part.isEmpty || isNCName part) &&
      !(c.isDigit || c == '-' || c == '.')

def isNmtoken (s : List Char) : Bool :=
  !s.isEmpty && s.all fun c => isLetterOrNumeral c || isNameMark c || c == ':'

def isSubtag (p : Char → Bool) (s : List Char) : Bool :=
  1 ≤ s.length && s.length ≤ 8 && s.all p

/-- Subtags of one to eight characters joined by hyphens; the first has letters only. -/
def isLanguage (s : List Char) : Bool :=
  match splitAt '-' s with
  | [] => false
  | first :: rest => isSubtag Char.isAlpha first && rest.all (isSubtag Char.isAlphanum)

end Text

/-! ## Namespace bindings -/

/-- Qualifiers bound to namespaces, and the namespace of unqualified element names. -/
structure Namespaces where
  bindings : List (String × String)
  defaultElement : Option String
  deriving Repr, DecidableEq

namespace Namespaces

/-- Only the qualifier that is bound everywhere. -/
def minimal : Namespaces := ⟨[("xml", Uri.xml)], none⟩

/-- The bindings every static context starts with. -/
def standard : Namespaces :=
  ⟨[("xml", Uri.xml), ("xs", Uri.schema), ("fn", Uri.functions), ("map", Uri.maps),
    ("array", Uri.arrays), ("math", Uri.math), ("err", Uri.errors)], none⟩

/-- Binds a qualifier, in place of an earlier binding of it. -/
def bind (ns : Namespaces) (qualifier uri : String) : Namespaces :=
  { ns with bindings := (qualifier, uri) :: ns.bindings.filter (·.1 != qualifier) }

/-- The namespace of a qualifier; of the empty one the default for elements. -/
def resolve (ns : Namespaces) (qualifier : String) : Option String :=
  if qualifier = "" then ns.defaultElement else ns.bindings.lookup qualifier

/-- The bindings in the order of their qualifiers. -/
def sorted (ns : Namespaces) : List (String × String) :=
  ns.bindings.mergeSort fun a b => !(b.1 < a.1 : Bool)

end Namespaces

/-- Reads `Q{uri}local`, or a bound qualifier with a local name; any other text is a local
name in no namespace. -/
def ExpandedName.ofString (ns : Namespaces) (text : String) : ExpandedName :=
  match text.toList with
  | 'Q' :: '\x7b' :: rest =>
    match Text.cutAt '\x7d' rest with
    | some (uri, l) => .inNamespace (String.ofList uri) (String.ofList l)
    | none => ⟨none, text⟩
  | cs =>
    match Text.cutAt ':' cs with
    | some (p, l) =>
      match ns.resolve (String.ofList p) with
      | some uri => .inNamespace uri (String.ofList l)
      | none => ⟨none, text⟩
    | none => ⟨none, text⟩

end XPath
