import XPath.Number.Numeral
import XPath.Text.Octets

/-!
# JSON texts

A reader for JSON. Numbers are doubles and must be finite, arrays and objects nest at most 127 deep,
and a key that occurs again keeps its first place with its last value.
-/

namespace XPath

open Number Text

inductive Json where
  | null
  | boolean (b : Bool)
  | number (d : Double)
  | string (s : String)
  | array (members : List Json)
  | object (entries : List (String × Json))
  deriving Repr

namespace Json

def isSpace (c : Char) : Bool := c = ' ' || c = '\n' || c = '\t' || c = '\r'

def skipSpace (s : List Char) : List Char := s.dropWhile isSpace

/-- The deepest nesting of arrays and objects. -/
def maxDepth : Nat := 127

/-- Removes the given characters from the front. -/
def expect? (expected s : List Char) : Option (List Char) :=
  if expected.isPrefixOf s then some (s.drop expected.length) else none

/-- Digits from the front; at least one. -/
def digits? (s : List Char) : Option (List Char × List Char) :=
  let ds := s.takeWhile (·.isDigit)
  if ds = [] then none else some (ds, s.dropWhile (·.isDigit))

/-- The integer part: a zero alone, or digits that do not begin with one. -/
def whole? (s : List Char) : Option (List Char × List Char) :=
  match s with
  | '0' :: rest =>
    match rest with
    | c :: _ => if c.isDigit then none else some (['0'], rest)
    | [] => some (['0'], rest)
  | _ => digits? s

def fraction? (s : List Char) : Option (List Char × List Char) :=
  match s with
  | '.' :: rest => digits? rest
  | _ => some ([], s)

def exponent? (s : List Char) : Option (Int × List Char) :=
  match s with
  | c :: rest =>
    if c = 'e' ∨ c = 'E' then do
      let (negative, rest) := takeSign rest
      let (ds, rest) ← digits? rest
      let n : Int := digitsValue ds
      return (if negative then -n else n, rest)
    else some (0, s)
  | [] => some (0, s)

/-- Reads a number; one beyond the range of doubles is refused. -/
def readNumber? (s : List Char) : Option (Double × List Char) := do
  let (negative, s) := dropMinus s
  let (whole, s) ← whole? s
  let (fraction, s) ← fraction? s
  let (exponent, s) ← exponent? s
  let d : Double := Numeral.toBinary .binary64 ⟨negative, whole, fraction⟩ exponent
  if d.isFinite then some (d, s) else none
where
  dropMinus : List Char → Bool × List Char
    | '-' :: rest => (true, rest)
    | s => (false, s)

/-- Four hexadecimal digits. -/
def hex4? : List Char → Option (Nat × List Char)
  | a :: b :: c :: d :: rest => do
    let high := (← hexValue? a) * 16 + (← hexValue? b)
    let low := (← hexValue? c) * 16 + (← hexValue? d)
    return (high * 256 + low, rest)
  | _ => none

/-- The character of an escape after `\u`; a high surrogate needs a low one to follow. -/
def unicodeEscape? (s : List Char) : Option (Char × List Char) := do
  let (n, rest) ← hex4? s
  if n < 0xD800 ∨ 0xDFFF < n then return (Char.ofNat n, rest)
  if 0xDC00 ≤ n then none
  let (low, rest) ← hex4? (← expect? ['\\', 'u'] rest)
  if 0xDC00 ≤ low ∧ low ≤ 0xDFFF then
    return (Char.ofNat (0x10000 + (n - 0xD800) * 0x400 + (low - 0xDC00)), rest)
  else none

/-- The characters up to the closing quote. -/
def readString? : Nat → List Char → List Char → Option (String × List Char)
  | 0, _, _ => none
  | fuel + 1, seen, s =>
    match s with
    | '"' :: rest => some (String.ofList seen.reverse, rest)
    | '\\' :: c :: rest =>
      let simple (d : Char) := readString? fuel (d :: seen) rest
      match c with
      | '"' | '\\' | '/' => simple c
      | 'b' => simple '\x08'
      | 'f' => simple '\x0c'
      | 'n' => simple '\n'
      | 'r' => simple '\r'
      | 't' => simple '\t'
      | 'u' =>
        match unicodeEscape? rest with
        | some (d, rest) => readString? fuel (d :: seen) rest
        | none => none
      | _ => none
    | c :: rest => if c.toNat < 0x20 ∨ c = '\\' then none else readString? fuel (c :: seen) rest
    | [] => none

/-- Sets the value of a key, in its first place if it is there already. -/
def put (entries : List (String × Json)) (key : String) (value : Json) : List (String × Json) :=
  if entries.any (·.1 == key) then
    entries.map fun (k, v) => if k == key then (k, value) else (k, v)
  else entries ++ [(key, value)]

mutual

/-- Reads a value after optional space; `depth` more levels may open. -/
def readValue? : Nat → Nat → List Char → Option (Json × List Char)
  | 0, _, _ => none
  | fuel + 1, depth, s =>
    match skipSpace s with
    | 'n' :: rest => (expect? "ull".toList rest).map (null, ·)
    | 't' :: rest => (expect? "rue".toList rest).map (boolean true, ·)
    | 'f' :: rest => (expect? "alse".toList rest).map (boolean false, ·)
    | '"' :: rest => (readString? (rest.length + 1) [] rest).map fun (s, rest) => (string s, rest)
    | '[' :: rest =>
      if depth = 0 then none
      else match skipSpace rest with
        | ']' :: rest => some (array [], rest)
        | rest => readMembers? fuel (depth - 1) [] rest
    | '\x7b' :: rest =>
      if depth = 0 then none
      else match skipSpace rest with
        | '\x7d' :: rest => some (object [], rest)
        | rest => readEntries? fuel (depth - 1) [] rest
    | s => (readNumber? s).map fun (d, rest) => (number d, rest)

/-- Reads the members of an array up to its end. -/
def readMembers? : Nat → Nat → List Json → List Char → Option (Json × List Char)
  | 0, _, _, _ => none
  | fuel + 1, depth, seen, s =>
    match readValue? fuel depth s with
    | none => none
    | some (value, rest) =>
      match skipSpace rest with
      | ',' :: rest => readMembers? fuel depth (value :: seen) rest
      | ']' :: rest => some (array (value :: seen).reverse, rest)
      | _ => none

/-- Reads the entries of an object up to its end. -/
def readEntries? : Nat → Nat → List (String × Json) → List Char → Option (Json × List Char)
  | 0, _, _, _ => none
  | fuel + 1, depth, seen, s =>
    match skipSpace s with
    | '"' :: rest =>
      match readString? (rest.length + 1) [] rest with
      | none => none
      | some (key, rest) =>
        match skipSpace rest with
        | ':' :: rest =>
          match readValue? fuel depth rest with
          | none => none
          | some (value, rest) =>
            let entries := put seen key value
            match skipSpace rest with
            | ',' :: rest => readEntries? fuel depth entries rest
            | '\x7d' :: rest => some (object entries, rest)
            | _ => none
        | _ => none
    | _ => none

end

/-- The value that a text consists of, space around it apart. -/
def read? (s : List Char) : Option Json :=
  match readValue? (2 * s.length + 2) maxDepth s with
  | some (value, rest) => if skipSpace rest = [] then some value else none
  | none => none

end Json

end XPath
