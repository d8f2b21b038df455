import Schemata.Attribute
import Schemata.Fundamental
import Schemata.Kind

/-! The attributes that come with the language.

Some belong to every declaration, some to those of one kind, some to a
fundamental type, and some depend on how often the declared thing may occur. -/
namespace Schemata

/-! ### Names with a meaning elsewhere -/

namespace Key

/-- Overrides the declared name. -/
def name : String := "name"
/-- The name of the field that holds the scalar of a simple object. -/
def fundamentalName : String := "fundamental_name"
/-- That name where none is given. -/
def defaultFundamentalName : String := "simple_value"
/-- Makes a collection of a collection a reference with an arity of its own. -/
def refinesArity : String := "refines_arity"

end Key

/-! ### By type, kind and arity -/

/-- The constraints of a fundamental type. -/
def Fundamental.attributes : Fundamental → List Attribute
  | .string =>
    [{ name := "min_length", type := .int, defaultValue := some (.int 1),
       check := some .nonNegative },
     { name := "max_length", type := .int, check := some .lengthOrder },
     { name := "validation_expression", type := .string }]
  | .enumeration =>
    [{ name := "values", type := .list .string, required := true,
       check := some .distinctValues },
     { name := "friendly_values", type := .list .string, check := some .friendlyCount }]
  | .int =>
    [{ name := "min", type := .int },
     { name := "max", type := .int, check := some .boundOrder },
     { name := "bytes", type := .oneOf .int [.int 1, .int 2, .int 4, .int 8] }]
  | .number =>
    [{ name := "min", type := .number },
     { name := "max", type := .number, check := some .boundOrder },
     { name := "bits", type := .oneOf .int [.int 16, .int 32, .int 64] }]
  | .filename =>
    [{ name := "ensure_exists", type := .bool, defaultValue := some (.bool true) },
     { name := "match_any", type := .bool, defaultValue := some (.bool false) }]
  | .directory =>
    [{ name := "ensure_exists", type := .bool, defaultValue := some (.bool true) }]
  | .bool | .guid | .dateTime | .date | .time | .duration | .uri => []

def Fundamental.hasAttribute (type : Fundamental) (name : String) : Bool :=
  type.attributes.any (·.name == name)

/-- What every declaration may carry. -/
def universalAttributes : List Attribute :=
  [{ name := Key.name, type := .string },
   { name := "description", type := .string, metadataOnly := true }]

/-- What a declaration of this kind may carry, given the fundamental type that it wraps. -/
def Kind.attributes (kind : Kind) (type : Option Fundamental) : List Attribute :=
  let constraints := (type.map Fundamental.attributes).getD []
  match kind with
  | .fundamental => constraints
  | .compound => [{ name := "abstract", type := .bool, defaultValue := some (.bool false) }]
  | .simple =>
    { name := Key.fundamentalName, type := .string,
      defaultValue := some (.text Key.defaultFundamentalName),
      check := some .identifier } :: constraints
  | .variant | .reference | .list | .any | .custom | .extension => []

/-- What a declaration may carry that need not occur. -/
def optionalAttributes : List Attribute :=
  [{ name := "default", type := .string, elementCheck := some .literalOfType }]

/-- What a declaration may carry that may occur more than once. -/
def collectionAttributes : List Attribute :=
  [{ name := "as_dictionary", type := .bool, defaultValue := some (.bool false) },
   { name := "key", type := .string, elementCheck := some .namesField },
   { name := "value", type := .string, elementCheck := some .namesField },
   { name := Key.refinesArity, type := .bool }]

end Schemata
