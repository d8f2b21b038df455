import Schemata.Document
import Schemata.Json.Number
import Schemata.Text.Hex

/-! JSON text.

`Json.read` accepts the texts of the JSON grammar: one document with white space
around it. Arrays and objects may be nested 127 deep, an escape for half of a
surrogate pair needs its other half, and of two members with one name the last
one counts. -/
namespace Schemata.Json

/-- The start of a text read as something, and what follows it. -/
abbrev Reader (α : Type) := List Char → Option (α × List Char)

def isSpace (c : Char) : Bool := c = ' ' || c = '\n' || c = '\t' || c = '\r'

def skipSpace (s : List Char) : List Char := s.dropWhile isSpace

/-! ### Strings -/

/-- The character that two halves of a surrogate pair make. -/
def pairedChar (high low : Nat) : Char :=
  Char.ofNat (0x10000 + (high - 0xD800) * 0x400 + (low - 0xDC00))

/-- The character of a `u` escape, whose digits come first. -/
def readUnicode : Reader Char := fun s => do
  let (n, rest) ← Text.takeHex 4 0 s
  if 0xDC00 ≤ n ∧ n ≤ 0xDFFF then none
  else if 0xD800 ≤ n ∧ n ≤ 0xDBFF then
    match rest with
    | '\\' :: 'u' :: rest => do
      let (low, rest) ← Text.takeHex 4 0 rest
      if 0xDC00 ≤ low ∧ low ≤ 0xDFFF then some (pairedChar n low, rest) else none
    | _ => none
  else some (Char.ofNat n, rest)

/-- The character of an escape, behind the backslash. -/
def readEscape : Reader Char
  | '"' :: rest => some ('"', rest)
  | '\\' :: rest => some ('\\', rest)
  | '/' :: rest => some ('/', rest)
  | 'b' :: rest => some ('\x08', rest)
  | 'f' :: rest => some ('\x0c', rest)
  | 'n' :: rest => some ('\n', rest)
  | 'r' :: rest => some ('\r', rest)
  | 't' :: rest => some ('\t', rest)
  | 'u' :: rest => readUnicode rest
  | _ => none

/-- The characters up to the closing quote. A control character has to be escaped. -/
def readChars : Nat → Reader (List Char)
  | 0, _ => none
  | _ + 1, [] => none
  | left + 1, c :: rest => do
    if c = '"' then return ([], rest)
    else if c.toNat < 0x20 then none
    else
      let (c, rest) ← if c = '\\' then readEscape rest else some (c, rest)
      let (cs, rest) ← readChars left rest
      return (c :: cs, rest)

/-- A string, from its opening quote on. -/
def readString : Reader String
  | '"' :: rest => (readChars (rest.length + 1) rest).map fun (cs, rest) => (String.ofList cs, rest)
  | _ => none

/-! ### Values -/

/-- Items with commas between them, up to the closing bracket. -/
def readItems {α : Type} (item : Reader α) (close : Char) : Nat → Reader (List α)
  | 0, _ => none
  | left + 1, s => do
    let (a, rest) ← item s
    match skipSpace rest with
    | ',' :: rest => do
      let (as, rest) ← readItems item close left rest
      return (a :: as, rest)
    | c :: rest => if c = close then some ([a], rest) else none
    | [] => none

/-- No items, or some, behind the opening bracket. -/
def readAll {α : Type} (item : Reader α) (close : Char) : Reader (List α) := fun s =>
  match skipSpace s with
  | c :: rest => if c = close then some ([], rest) else readItems item close (s.length + 1) s
  | [] => none

/-- A name, a colon and a value. -/
def readMember {α : Type} (value : Reader α) : Reader (String × α) := fun s => do
  let (name, rest) ← readString (skipSpace s)
  match skipSpace rest with
  | ':' :: rest => do
    let (a, rest) ← value rest
    return ((name, a), rest)
  | _ => none

def readScalar : Reader Document
  | 't' :: 'r' :: 'u' :: 'e' :: rest => some (.bool true, rest)
  | 'f' :: 'a' :: 'l' :: 's' :: 'e' :: rest => some (.bool false, rest)
  | 'n' :: 'u' :: 'l' :: 'l' :: rest => some (.null, rest)
  | s =>
    match s.head? with
    | some '"' => (readString s).map fun (text, rest) => (.text text, rest)
    | _ => (readNumber s).map fun (n, rest) =>
      match n with
      | .int i => (.int i, rest)
      | .number x => (.number x, rest)

/-- A value in which arrays and objects are nested at most so deep. -/
def readValue : Nat → Reader Document
  | 0, s =>
    match skipSpace s with
    | '[' :: _ => none
    | '\x7b' :: _ => none
    | s => readScalar s
  | depth + 1, s =>
    match skipSpace s with
    | '[' :: rest => (readAll (readValue depth) ']' rest).map fun (ds, rest) => (.array ds, rest)
    | '\x7b' :: rest =>
      (readAll (readMember (readValue depth)) '\x7d' rest).map fun (ms, rest) =>
        (.ofMembers ms, rest)
    | s => readScalar s

/-- The document that a text writes. -/
def read (text : String) : Option Document :=
  match readValue 127 text.toList with
  | some (document, rest) => if (skipSpace rest).isEmpty then some document else none
  | none => none

end Schemata.Json
