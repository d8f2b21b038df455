import Schemata.Attribute.Check
import Schemata.Attribute.Type
import Schemata.Element
import Schemata.TypeInfo.Fields

/-! Attributes: the metadata a declaration may carry.

An attribute has a name and a type; it can be required, have a default, and be
checked in two ways: among the metadata of its declaration, and within the
finished graph, where the type of the declared thing is known. A `Schema` is the
attributes of one declaration by name. -/
namespace Schemata

/-- What a check can look at that needs the element its value stands on. -/
structure ElementContext where
  element : Element (Option ElementId)
  typeInfos : TypeInfoArena
  /-- The scalar that the element wraps. -/
  scalar : Option ScalarShape

/-- The names of all fields that the element's type has, if that is a record. -/
def ElementContext.fieldNames (context : ElementContext) : Option (List String) :=
  context.typeInfos.fieldNames context.element.typeInfo

/-- Checks of a value that need the element it stands on. -/
inductive ElementCheck
  /-- A text is a literal of the fundamental type that the element wraps. -/
  | literalOfType
  /-- A text names a field of what the element is a collection of. -/
  | namesField
  /-- A check that a plugin brings with an attribute of its own. It says what is wrong. -/
  | custom (check : Value → ElementContext → Except String Unit)

structure Attribute where
  name : String
  type : AttributeType
  required : Bool := false
  defaultValue : Option Value := none
  /-- Documentation only: setting it on a reference changes nothing about what is referred to. -/
  metadataOnly : Bool := false
  check : Option ValueCheck := none
  elementCheck : Option ElementCheck := none
deriving Inhabited

/-- Attributes by name, in order. -/
abbrev Schema := OrderedMap String Attribute

/-- The schema of these attributes: of two with one name the first place and the last attribute
stay. -/
def Schema.ofAttributes (attributes : List Attribute) : Schema :=
  OrderedMap.ofList (attributes.map fun a => (a.name, a))

end Schemata
