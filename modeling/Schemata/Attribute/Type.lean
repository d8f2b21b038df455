import Schemata.Number.Decimal
import Schemata.Text.Blank
import Schemata.Text.Split
import Schemata.Value

/-! The types of attributes, and how a value becomes one of a type.

`AttributeType.convert` reads text and leaves a value that already has the right
form as it is; a whole number may stand for a decimal one, text for the list of
its parts between commas, and any other single value for the list of it alone. -/
namespace Schemata

inductive AttributeType
  | string
  | bool
  | int
  | number
  /-- One of the listed values of another type. -/
  | oneOf (inner : AttributeType) (values : List Value)
  | list (inner : AttributeType)
deriving Inhabited

/-- Why a value cannot have a type. -/
inductive TypeFault
  | notInt (text : String) (fault : Number.IntegerFault)
  | notNumber (text : String) (fault : Number.DecimalFault)
  | notBool (text : String)
  | notListed (found : Value) (values : List Value)
  | otherForm (expected : AttributeType) (found : Value)

namespace AttributeType

def render : AttributeType → String
  | string => "string"
  | bool => "bool"
  | int => "int"
  | number => "number"
  | oneOf _ values => "one of " ++ (Value.list values).render
  | list inner => "list of " ++ inner.render

/-! ### Reading text -/

def readInt (text : String) : Except TypeFault Int64 :=
  (Number.readInteger (Text.trim text.toList)).mapError (.notInt text)

def readNumber (text : String) : Except TypeFault Float :=
  (Number.readDecimal (Text.trim text.toList)).mapError (.notNumber text)

/-- Three words for each truth value, in any case. -/
def readBool (text : String) : Except TypeFault Bool :=
  let word := String.ofList ((Text.trim text.toList).map Char.toLower)
  if word = "true" || word = "yes" || word = "1" then .ok true
  else if word = "false" || word = "no" || word = "0" then .ok false
  else .error (.notBool text)

/-- The parts between commas, trimmed, without the empty ones. -/
def commaParts (text : String) : List String :=
  (((Text.split (· == ',') text.toList).map Text.trim).filter (!·.isEmpty)).map String.ofList

/-! ### Conversion -/

/-- The value as one of this type. -/
def convert : AttributeType → Value → Except TypeFault Value
  | string, .text s => .ok (.text s)
  | bool, .bool b => .ok (.bool b)
  | bool, .text s => (readBool s).map .bool
  | int, .int i => .ok (.int i)
  | int, .text s => (readInt s).map .int
  | number, .number x => .ok (.number x)
  | number, .int i => .ok (.number (Float.ofInt i.toInt))
  | number, .text s => (readNumber s).map .number
  | oneOf inner values, v => do
    let converted ← inner.convert v
    if values.contains converted then .ok converted else .error (.notListed converted values)
  | list inner, .list vs => (vs.mapM inner.convert).map .list
  | list inner, .text s => ((commaParts s).mapM fun part => inner.convert (.text part)).map .list
  | list inner, v => (inner.convert v).map fun w => .list [w]
  | expected, found => .error (.otherForm expected found)

end AttributeType

def TypeFault.message : TypeFault → String
  | notInt text fault => s!"'{text}' is not a valid int ({fault.message})"
  | notNumber text fault => s!"'{text}' is not a valid number ({fault.message})"
  | notBool text => s!"'{text}' is not a valid bool"
  | notListed found values => s!"'{found.render}' is not one of {(Value.list values).render}"
  | otherForm expected found =>
    s!"expected {expected.render} but found {found.form} '{found.render}'"

end Schemata
