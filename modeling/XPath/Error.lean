import XPath.Name

/-!
# Errors

An error is a code from a fixed list with a message. Codes fall into a few kinds.
-/

namespace XPath

/-- The codes that evaluation raises. -/
inductive ErrorCode where
  /-- division by zero -/
  | FOAR0001
  /-- numeric overflow -/
  | FOAR0002
  /-- array position out of bounds -/
  | FOAY0001
  /-- negative array length -/
  | FOAY0002
  /-- value out of range of a numeric cast -/
  | FOCA0002
  /-- unidentified error -/
  | FOER0000
  /-- malformed JSON -/
  | FOJS0001
  /-- qualifier without a namespace -/
  | FONS0004
  /-- malformed lexical value -/
  | FORG0001
  /-- no effective boolean value -/
  | FORG0006
  /-- function item cannot be atomized -/
  | FOTY0013
  /-- context item absent -/
  | XPDY0002
  /-- undefined variable -/
  | XPST0008
  /-- unknown function -/
  | XPST0017
  /-- type error -/
  | XPTY0004
  /-- nodes and other items mixed in a path result -/
  | XPTY0018
  /-- a path step applied to something that is not a node -/
  | XPTY0019
  /-- duplicate map key -/
  | XQDY0137
  /-- a code outside the list -/
  | unlisted
  deriving Repr, DecidableEq

/-- Coarse classes of codes. -/
inductive ErrorKind where
  | typeMismatch | castError | namespaceResolution | bounds | parse | unsupportedOperation
  | missingContext | dynamic
  deriving Repr, DecidableEq

def ErrorKind.label : ErrorKind → String
  | .typeMismatch => "TypeMismatch"
  | .castError => "CastError"
  | .namespaceResolution => "NamespaceResolution"
  | .bounds => "Bounds"
  | .parse => "Parse"
  | .unsupportedOperation => "UnsupportedOperation"
  | .missingContext => "MissingContext"
  | .dynamic => "Dynamic"

namespace ErrorCode

/-- The listed codes. -/
def all : List ErrorCode := [
  .FOAR0001, .FOAR0002, .FOAY0001, .FOAY0002, .FOCA0002, .FOER0000, .FOJS0001, .FONS0004, .FORG0001,
  .FORG0006, .FOTY0013, .XPDY0002, .XPST0008, .XPST0017, .XPTY0004, .XPTY0018, .XPTY0019, .XQDY0137]

def label : ErrorCode → String
  | .FOAR0001 => "FOAR0001"
  | .FOAR0002 => "FOAR0002"
  | .FOAY0001 => "FOAY0001"
  | .FOAY0002 => "FOAY0002"
  | .FOCA0002 => "FOCA0002"
  | .FOER0000 => "FOER0000"
  | .FOJS0001 => "FOJS0001"
  | .FONS0004 => "FONS0004"
  | .FORG0001 => "FORG0001"
  | .FORG0006 => "FORG0006"
  | .FOTY0013 => "FOTY0013"
  | .XPDY0002 => "XPDY0002"
  | .XPST0008 => "XPST0008"
  | .XPST0017 => "XPST0017"
  | .XPTY0004 => "XPTY0004"
  | .XPTY0018 => "XPTY0018"
  | .XPTY0019 => "XPTY0019"
  | .XQDY0137 => "XQDY0137"
  | .unlisted => "UNKNOWN"

/-- Reads a code, with or without the qualifier `err:`. -/
def ofString (text : String) : ErrorCode :=
  let cs := text.toList
  let bare := if "err:".toList.isPrefixOf cs then String.ofList (cs.drop 4) else text
  (all.find? (·.label == bare)).getD .unlisted

def expandedName (c : ErrorCode) : ExpandedName := .inNamespace Uri.errors c.label

def kind : ErrorCode → ErrorKind
  | .XPTY0004 | .XPTY0018 | .XPTY0019 | .FORG0006 => .typeMismatch
  | .FORG0001 | .FOCA0002 => .castError
  | .FONS0004 => .namespaceResolution
  | .FOAY0001 | .FOAY0002 => .bounds
  | .FOJS0001 => .parse
  | .FOTY0013 => .unsupportedOperation
  | .XPDY0002 => .missingContext
  | .FOAR0001 | .FOAR0002 | .FOER0000 | .XPST0008 | .XPST0017 | .XQDY0137 | .unlisted => .dynamic

/-- The code with its customary qualifier. -/
def qualified (c : ErrorCode) : String := "err:" ++ c.label

end ErrorCode

structure Error where
  code : ErrorCode
  message : String
  deriving Repr, DecidableEq

namespace Error

def typeError (message : String) : Error := ⟨.XPTY0004, message⟩

/-- A failure without a code of its own. -/
def unidentified (message : String) : Error := ⟨.FOER0000, message⟩

def missingContext (what : String) : Error := ⟨.XPDY0002, what ++ " requires a context item"⟩

def label (e : Error) : String := e.code.qualified ++ ": " ++ e.message

end Error

end XPath
