import Schemata.Attribute.Type
import Schemata.Fundamental
import Schemata.OrderedMap

/-! Literals of the fundamental types.

A literal is text; `Fundamental.readLiteral` says which value of a fundamental
type it writes under the constraints of that type. Text-like types keep the text
as it is once it has the type's format. Digits and letters of the formats are
those of ASCII. -/
namespace Schemata

/-- Values of the constraint attributes of a fundamental type. -/
abbrev Constraints := OrderedMap String Value

/-- Why a text is no literal of a type. -/
inductive LiteralFault
  | tooShort (text : String) (least : Int64)
  | tooLong (text : String) (greatest : Int64)
  | notListed (text : String)
  | notOfType (fault : TypeFault)
  | below (value bound : Float)
  | above (value bound : Float)
  | otherFormat (text : String) (type : Fundamental)

def LiteralFault.message : LiteralFault → String
  | tooShort text least => s!"'{text}' is shorter than {least.toInt} characters"
  | tooLong text greatest => s!"'{text}' is longer than {greatest.toInt} characters"
  | notListed text => s!"'{text}' is not a valid enum value"
  | notOfType fault => fault.message
  | below value bound =>
    s!"{Number.renderFloat value} is less than {Number.renderFloat bound}"
  | above value bound =>
    s!"{Number.renderFloat value} is greater than {Number.renderFloat bound}"
  | otherFormat text type => s!"'{text}' is not a valid {type.keyword}"

namespace Literal

/-! ### Formats -/

def isHexDigit (c : Char) : Bool :=
  c.isDigit || ('a' ≤ c && c ≤ 'f') || ('A' ≤ c && c ≤ 'F')

/-- So many digits, which write a number within the bounds. -/
def isField (length least greatest : Nat) (s : List Char) : Bool :=
  s.length = length && s.all Char.isDigit &&
    least ≤ Number.digitsValue s && Number.digitsValue s ≤ greatest

/-- Five groups of hexadecimal digits between hyphens. -/
def isGuid (s : List Char) : Bool :=
  let groups := Text.split (· == '-') s
  groups.map List.length = [8, 4, 4, 4, 12] && groups.all (·.all isHexDigit)

/-- Year, month and day between hyphens. -/
def isDate (s : List Char) : Bool :=
  match Text.split (· == '-') s with
  | [year, month, day] => isField 4 0 9999 year && isField 2 1 12 month && isField 2 1 31 day
  | _ => false

/-- Hours, minutes and seconds between colons. -/
def isClock (s : List Char) : Bool :=
  match Text.split (· == ':') s with
  | [hours, minutes, seconds] =>
    isField 2 0 23 hours && isField 2 0 59 minutes && isField 2 0 59 seconds
  | _ => false

def isDigits (s : List Char) : Bool := !s.isEmpty && s.all Char.isDigit

/-- A clock time, and digits behind a point if there is one. -/
def isTime (s : List Char) : Bool :=
  match Text.cut (· == '.') s with
  | some (clock, fraction) => isDigits fraction && isClock clock
  | none => isClock s

/-- Without one `Z` at the end. -/
def withoutZone (s : List Char) : List Char := if s.getLast? = some 'Z' then s.dropLast else s

/-- A date and a time with a `T` or a space between them, and perhaps a `Z` behind them. -/
def isDateTime (s : List Char) : Bool :=
  match Text.cut (fun c => c == 'T' || c == ' ') (withoutZone s) with
  | some (date, time) => isDate date && isTime time
  | none => false

/-- A clock time, perhaps with a number of days and a point before it. -/
def isDuration (s : List Char) : Bool :=
  match Text.cut (· == '.') s with
  | some (days, rest) => if isDigits days then isClock rest else isClock s
  | none => isClock s

/-- A scheme, a colon and something behind it. -/
def isUri (s : List Char) : Bool :=
  match Text.cut (· == ':') s with
  | some (scheme, rest) =>
    !rest.isEmpty && (scheme.head?.any Char.isAlpha) &&
      scheme.all fun c => c.isAlphanum || c = '+' || c = '-' || c = '.'
  | none => false

/-! ### Bounds -/

def checkLower (value : Float) : Option Float → Except LiteralFault Unit
  | some least => if value < least then .error (.below value least) else .ok ()
  | none => .ok ()

def checkUpper (value : Float) : Option Float → Except LiteralFault Unit
  | some greatest => if greatest < value then .error (.above value greatest) else .ok ()
  | none => .ok ()

/-- A number against the constraints `min` and `max`, the lower bound first. -/
def checkBounds (value : Float) (c : Constraints) : Except LiteralFault Unit := do
  checkLower value ((c.find? "min").bind Value.asNumber?)
  checkUpper value ((c.find? "max").bind Value.asNumber?)

/-- The number of characters against the constraints `min_length` and `max_length`. -/
def checkLength (text : String) (c : Constraints) : Except LiteralFault Unit := do
  let length : Int := text.toList.length
  if let some least := (c.find? "min_length").bind Value.asInt? then
    if length < least.toInt then throw (.tooShort text least)
  if let some greatest := (c.find? "max_length").bind Value.asInt? then
    if greatest.toInt < length then throw (.tooLong text greatest)

/-- The values listed by the constraint `values`. -/
def listedValues (c : Constraints) : List Value :=
  ((c.find? "values").bind Value.asList?).getD []

end Literal

open Literal in
/-- The value that a literal of this type writes under the constraints. -/
def Fundamental.readLiteral (type : Fundamental) (text : String) (c : Constraints) :
    Except LiteralFault Value :=
  match type with
  | .string => do
    checkLength text c
    return .text text
  | .enumeration =>
    if (listedValues c).any (·.asText? == some text) then .ok (.text text)
    else .error (.notListed text)
  | .int => do
    let i ← (AttributeType.readInt text).mapError .notOfType
    checkBounds (Float.ofInt i.toInt) c
    return .int i
  | .number => do
    let x ← (AttributeType.readNumber text).mapError .notOfType
    checkBounds x c
    return .number x
  | .bool => ((AttributeType.readBool text).map .bool).mapError .notOfType
  | .guid => ofFormat isGuid
  | .dateTime => ofFormat isDateTime
  | .date => ofFormat isDate
  | .time => ofFormat isTime
  | .duration => ofFormat isDuration
  | .uri => ofFormat isUri
  | .filename => ofFormat fun s => !Text.isBlankText s
  | .directory => ofFormat fun s => !Text.isBlankText s
where
  /-- The text itself, if it has the format. -/
  ofFormat (format : List Char → Bool) : Except LiteralFault Value :=
    if format text.toList then .ok (.text text) else .error (.otherFormat text type)

end Schemata
