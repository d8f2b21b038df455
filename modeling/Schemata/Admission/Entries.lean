import Schemata.Config
import Schemata.Item

/-! The metadata of an item against its schema.

Required attributes have to be there, others than those of the schema must not
(or are dropped), every value becomes one of its attribute's type, then the
checks run on the typed metadata, and at last defaults fill what is still
open. -/
namespace Schemata.Item

variable (i : Item)

/-! ### The steps -/

/-- Every required attribute has an entry. `name` is the item's, for messages. -/
def checkRequired (name : String) : Except Failure Unit :=
  i.schema.values.forM fun a =>
    if a.required && !i.metadata.contains a.name then
      .error ((Cause.missingRequiredAttribute name a.name).at i.location)
    else .ok ()

/-- Without the entries that the schema does not know, if they may be dropped. -/
def dropUnknown (options : Options) (name : String) : Except Failure Item :=
  let unknown := i.metadata.filter fun key _ => !i.schema.contains key
  match options.filterAttributes, unknown.entries with
  | false, (key, entry) :: _ => .error ((Cause.unsupportedAttribute name key).at entry.location)
  | _, _ => .ok { i with metadata := i.metadata.filter fun key _ => i.schema.contains key }

/-- Every value as one of its attribute's type. -/
def typeValues : Except Failure Item := do
  let metadata ← i.metadata.traverse fun key entry =>
    match i.schema.find? key with
    | none => .ok entry
    | some a =>
      match a.type.convert entry.value with
      | .ok value => .ok { entry with value }
      | .error fault => .error ((Cause.invalidAttributeValue key fault.message).at entry.location)
  return { i with metadata }

/-- Every value that has a check passes it. -/
def checkValues : Except Failure Unit :=
  i.metadata.entries.forM fun e =>
    match (i.schema.find? e.1).bind Attribute.check with
    | none => .ok ()
    | some check =>
      match check.run e.2.value i.metadata with
      | .ok () => .ok ()
      | .error fault =>
        .error ((Cause.invalidAttributeValue e.1 fault.message).at e.2.location)

/-- The defaults of attributes that have no entry. -/
def openDefaults : List (String × Entry) :=
  i.schema.values.filterMap fun a =>
    if i.metadata.contains a.name then none
    else a.defaultValue.map fun value => (a.name, ⟨value, .default, i.location⟩)

def fillDefaults : Item := { i with metadata := i.metadata.insertAll i.openDefaults }

/-! ### Together -/

/-- The item with its metadata checked, typed and filled. -/
def admitMetadata (options : Options) (name : String) : Except Failure Item := do
  i.checkRequired name
  let known ← i.dropUnknown options name
  let typed ← known.typeValues
  typed.checkValues
  return typed.fillDefaults

end Schemata.Item
