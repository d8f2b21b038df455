import Schemata.Kind
import Schemata.Location

/-! Why a compilation stops.

A `Cause` names what is wrong together with the words its message needs; a
`Failure` is a cause at a place. Every cause has a stable code, an area and a
number in it, by which tools recognise it whatever the message says. Two codes
can be filtered: an unsupported attribute and an unsupported extension. -/
namespace Schemata

/-- What is wrong. -/
inductive Cause
  | unresolvedReference (name : String)
  | circularReference (name : String)
  | reservedName (name : String)
  | invalidArity (arity reason : String)
  | duplicateName (name : String)
  | multipleFundamentalReferences (name : String)
  | multipleSimpleSources (name : String)
  | invalidSimpleBase (name base : String)
  | invalidAttributeItem (name reason : String)
  | unsupportedKind (name : String) (kind : Kind) (plugin : String)
  | invalidVariantArity (name arity : String)
  | missingRequiredAttribute (name key : String)
  | unsupportedAttribute (name key : String)
  | invalidAttributeValue (key reason : String)
  | invalidExtension (name : String)
  | duplicateExtension (name : String)
  | referenceToExtension (name extension : String)
  | badIndentation (line : Nat)
  | unresolvedTypeInfo (name : String)
  | unresolvedLink (name : String)
  | invalidConfig (reason : String)
deriving DecidableEq, Repr

/-- The part of the work that a cause belongs to. -/
inductive Area
  | naming
  | typing
  | metadata
  | structural
  | building
  | input
deriving DecidableEq, Repr

def Area.digits : Area → String
  | naming => "01"
  | typing => "02"
  | metadata => "03"
  | structural => "04"
  | building => "05"
  | input => "09"

/-- A stable number for a cause, counted from one within its area. -/
structure Code where
  area : Area
  number : Nat
deriving DecidableEq, Repr

namespace Code

/-- The letter `E`, two digits for the area and two for the number. -/
def render (c : Code) : String :=
  s!"E{c.area.digits}" ++ (if c.number < 10 then "0" else "") ++ toString c.number

/-- Whether an option can turn this failure into a warning. -/
def isFilterable (c : Code) : Bool := c = ⟨.metadata, 2⟩ || c = ⟨.structural, 4⟩

end Code

namespace Cause

def code : Cause → Code
  | unresolvedReference .. => ⟨.naming, 1⟩
  | reservedName .. => ⟨.naming, 2⟩
  | duplicateName .. => ⟨.naming, 3⟩
  | circularReference .. => ⟨.naming, 4⟩
  | invalidArity .. => ⟨.typing, 1⟩
  | multipleFundamentalReferences .. => ⟨.typing, 2⟩
  | unsupportedKind .. => ⟨.typing, 3⟩
  | invalidVariantArity .. => ⟨.typing, 4⟩
  | missingRequiredAttribute .. => ⟨.metadata, 1⟩
  | unsupportedAttribute .. => ⟨.metadata, 2⟩
  | invalidAttributeValue .. => ⟨.metadata, 3⟩
  | multipleSimpleSources .. => ⟨.structural, 1⟩
  | invalidSimpleBase .. => ⟨.structural, 2⟩
  | invalidAttributeItem .. => ⟨.structural, 3⟩
  | invalidExtension .. => ⟨.structural, 4⟩
  | duplicateExtension .. => ⟨.structural, 5⟩
  | referenceToExtension .. => ⟨.structural, 6⟩
  | unresolvedTypeInfo .. => ⟨.building, 1⟩
  | unresolvedLink .. => ⟨.building, 2⟩
  | badIndentation .. => ⟨.input, 1⟩
  | invalidConfig .. => ⟨.input, 2⟩

def message : Cause → String
  | unresolvedReference name => s!"The reference '{name}' could not be resolved"
  | circularReference name => s!"The reference chain starting at '{name}' is circular"
  | reservedName name => s!"The name '{name}' is reserved for a builtin type"
  | invalidArity arity reason => s!"The arity '{arity}' is invalid: {reason}"
  | duplicateName name => s!"The name '{name}' has already been defined in this scope"
  | multipleFundamentalReferences name =>
    s!"'{name}' references more than one fundamental type"
  | multipleSimpleSources name =>
    s!"'{name}' is a simple object with more than one simple source"
  | invalidSimpleBase name base =>
    s!"'{name}' is a simple object and cannot be based on '{base}'"
  | invalidAttributeItem name reason => s!"The attribute '{name}' is invalid: {reason}"
  | unsupportedKind name kind plugin =>
    s!"'{name}' is a {kind.name} element, which is not supported by the '{plugin}' plugin"
  | invalidVariantArity name arity =>
    s!"The variant alternative '{name}' must have an arity of exactly one (found '{arity}')"
  | missingRequiredAttribute name key =>
    s!"The required attribute '{key}' is missing on '{name}'"
  | unsupportedAttribute name key =>
    s!"The attribute '{key}' is not supported on '{name}'"
  | invalidAttributeValue key reason =>
    s!"The value for the attribute '{key}' is invalid: {reason}"
  | invalidExtension name => s!"The extension '{name}' is not supported"
  | duplicateExtension name => s!"The extension '{name}' may only appear once in a scope"
  | referenceToExtension name extension => s!"'{name}' references the extension '{extension}'"
  | badIndentation line => s!"The multi-line string is not properly indented on line {line}"
  | unresolvedTypeInfo name => s!"The type information for '{name}' was never resolved"
  | unresolvedLink name => s!"The element link from '{name}' was never resolved"
  | invalidConfig reason => s!"The configuration is invalid: {reason}"

end Cause

/-- A cause and the place it was met at. -/
structure Failure where
  cause : Cause
  location : Location
deriving DecidableEq, Repr

def Cause.at (c : Cause) (l : Location) : Failure := ⟨c, l⟩

namespace Failure

def code (f : Failure) : Code := f.cause.code

/-- The cause's message with the place in parentheses. -/
def message (f : Failure) : String := s!"{f.cause.message} ({f.location.render})"

end Failure
end Schemata
