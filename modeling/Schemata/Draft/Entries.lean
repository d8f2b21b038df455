import Schemata.Attribute
import Schemata.Draft
import Schemata.Literal

/-! The metadata of elements.

An element takes over the entries that its item's schema knows; an extension has
no schema and takes all. Then the checks run that need to know the type of the
element. -/
namespace Schemata

/-- Why a value fails a check within the graph. -/
inductive ElementFault
  | notLiteral (fault : LiteralFault)
  | notField (name : String)
  | noFields (name : String)
  | custom (message : String)

def ElementFault.message : ElementFault → String
  | notLiteral fault => fault.message
  | notField name => s!"'{name}' is not a field of the collection's item type"
  | noFields name =>
    s!"'{name}' cannot be used because the collection's item type has no fields"
  | custom message => message

/-- Whether a value may stand on an element. -/
def ElementCheck.run (check : ElementCheck) (value : Value) (context : ElementContext) :
    Except ElementFault Unit :=
  match check, value.asText? with
  | custom check, _ => (check value context).mapError .custom
  | _, none => .ok ()
  | literalOfType, some text =>
    match context.scalar with
    | none => .ok ()
    | some s => ((s.type.readLiteral text s.constraints).map fun _ => ()).mapError .notLiteral
  | namesField, some name =>
    match context.fieldNames with
    | none => .error (.noFields name)
    | some names => if name ∈ names then .ok () else .error (.notField name)

namespace Draft

variable (d : Draft)

/-- The values of an item's entries that its element takes over. -/
def keptValues (i : Item) : OrderedMap String Value :=
  (i.metadata.filter fun key _ => i.isExtension || i.schema.contains key).mapValues
    fun _ entry => entry.value

/-- What there is to be seen of an element while its values are checked. -/
def contextOf (id : ElementId) : ElementContext := ⟨d.element id, d.typeInfos, d.scalarOf id⟩

/-- A value of an element passes the check of its attribute. -/
def checkEntry (i : Item) (id : ElementId) (e : String × Value) : Except Failure Unit :=
  match (i.schema.find? e.1).bind Attribute.elementCheck with
  | none => .ok ()
  | some check =>
    match check.run e.2 (d.contextOf id) with
    | .ok () => .ok ()
    | .error fault =>
      let location := ((i.metadata.find? e.1).map Entry.location).getD (d.element id).location
      .error ((Cause.invalidAttributeValue e.1 fault.message).at location)

/-- Gives an element its metadata. -/
def takeEntries (tree : ItemTree) (d : Draft) (id : ElementId) : Except Failure Draft := do
  let i := tree.item (d.draftElement id).item
  let d := d.modifyElement id fun e => { e with metadata := keptValues i }
  (d.element id).metadata.entries.forM (d.checkEntry i id)
  return d

/-- Gives every element its metadata. -/
def takeAllEntries (tree : ItemTree) (root : ElementId) : Except Failure Draft :=
  (d.walk root).foldlM (takeEntries tree) d

end Draft
end Schemata
