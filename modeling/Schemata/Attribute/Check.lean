import Schemata.Metadata
import Schemata.Text.Letter

/-! Checks of one attribute value among the metadata it stands in.

They run once every value of a declaration has its attribute's type. A check
that a value of another form could not fail passes such a value. -/
namespace Schemata

inductive ValueCheck
  /-- A whole number is not negative. -/
  | nonNegative
  /-- A greatest length is positive and not below the least length. -/
  | lengthOrder
  /-- A greatest number is not below the least one. -/
  | boundOrder
  /-- There are values, and no two of them are the same. -/
  | distinctValues
  /-- There are as many friendly values as values. -/
  | friendlyCount
  /-- A text is an identifier. -/
  | identifier
  /-- A check that a plugin brings with an attribute of its own. It says what is wrong. -/
  | custom (check : Value → Metadata → Except String Unit)

/-- Why a value fails its check. -/
inductive CheckFault
  | negative (i : Int64)
  | notPositive (i : Int64)
  | belowMinLength (greatest least : Int64)
  | belowMin (greatest : Value) (least : Float)
  | noValues
  | repeated (value : Value)
  | friendlyCount (friendly values : Nat)
  | notIdentifier (text : String)
  | custom (message : String)

def CheckFault.message : CheckFault → String
  | negative i => s!"{i.toInt} must be greater than or equal to 0"
  | notPositive i => s!"{i.toInt} must be greater than 0"
  | belowMinLength greatest least =>
    s!"{greatest.toInt} is less than min_length ({least.toInt})"
  | belowMin greatest least =>
    s!"{greatest.render} is less than min ({Number.renderFloat least})"
  | noValues => "at least one value must be provided"
  | repeated value => s!"the value '{value.render}' appears more than once"
  | friendlyCount friendly values =>
    s!"{friendly} friendly values were provided for {values} values"
  | notIdentifier text => s!"'{text}' is not a valid identifier"
  | custom message => message

namespace ValueCheck

/-- The first value that is the same as one before it. -/
def firstRepeated (before : List Value) : List Value → Option Value
  | [] => none
  | v :: rest => if before.contains v then some v else firstRepeated (before ++ [v]) rest

def lengthOf (v : Option Value) : Nat := ((v.bind Value.asList?).map List.length).getD 0

/-- Whether the value may stand in this metadata. -/
def run (check : ValueCheck) (value : Value) (metadata : Metadata) : Except CheckFault Unit :=
  match check with
  | nonNegative =>
    match value.asInt? with
    | some i => if i < 0 then .error (.negative i) else .ok ()
    | none => .ok ()
  | lengthOrder =>
    match value.asInt? with
    | none => .ok ()
    | some greatest =>
      if greatest < 1 then .error (.notPositive greatest)
      else
        match (metadata.value? "min_length").bind Value.asInt? with
        | some least =>
          if greatest < least then .error (.belowMinLength greatest least) else .ok ()
        | none => .ok ()
  | boundOrder =>
    match value.asNumber?, (metadata.value? "min").bind Value.asNumber? with
    | some greatest, some least =>
      if greatest < least then .error (.belowMin value least) else .ok ()
    | _, _ => .ok ()
  | distinctValues =>
    let values := (value.asList?).getD []
    if values.isEmpty then .error .noValues
    else
      match firstRepeated [] values with
      | some v => .error (.repeated v)
      | none => .ok ()
  | friendlyCount =>
    let friendly := lengthOf (some value)
    let values := lengthOf (metadata.value? "values")
    if friendly = values then .ok () else .error (.friendlyCount friendly values)
  | identifier =>
    let text := (value.asText?).getD ""
    if Text.isIdentifier text.toList then .ok () else .error (.notIdentifier text)
  | custom check => (check value metadata).mapError .custom

end ValueCheck
end Schemata
