import Schemata.Draft.Assembly

/-! The values of simple objects.

At last every simple object's value gets the name that the object's metadata
gives, or the usual one, and the type of a value that narrows another is worked
out. A name that an attribute of the object has already is refused. -/
namespace Schemata.Draft

variable (d : Draft)

/-- The name of the field of a simple object's value. -/
def valueName (id : ElementId) : String :=
  (((d.element id).metadata.find? Key.fundamentalName).bind Value.asText?).getD
    Key.defaultFundamentalName

/-- Fills the place of a value that narrows another. -/
def settleNarrowing (id : ElementId) : Except Failure Draft :=
  match d.valuePlaces.find? (d.draftElement id).item with
  | none => .ok d
  | some place =>
    if d.narrowings.contains place then
      match d.scalarAt place with
      | some s =>
        .ok { d.fill place ⟨.one, .scalar s⟩ with narrowings := d.narrowings.erase place }
      | none =>
        let e := d.element id
        .error ((Cause.unresolvedTypeInfo (e.name.getD "<anonymous>")).at e.location)
    else .ok d

/-- Fields with the value's field under its name. -/
def renameValue (name : String) (fields : OrderedMap String TypeInfoId) :
    OrderedMap String TypeInfoId :=
  OrderedMap.ofList (fields.entries.map fun e =>
    if e.1 = Blueprint.valuePlaceholder then (name, e.2) else e)

/-- Gives the field of a value its name. -/
def nameField (id : ElementId) (name : String) : Except Failure Draft :=
  let place := (d.element id).typeInfo
  match d.typeInfos.get? place with
  | some ⟨arity, .record c⟩ =>
    if name ≠ Blueprint.valuePlaceholder && c.fields.contains name then
      .error ((Cause.duplicateName name).at (d.element id).location)
    else .ok (d.fill place ⟨arity, .record { c with fields := renameValue name c.fields }⟩)
  | _ => .ok d

/-- Settles and names the value of an element, if it is a simple object. -/
def settleValue (d : Draft) (id : ElementId) : Except Failure Draft :=
  match (d.element id).data with
  | .simple attributes _ => do
    let name := d.valueName id
    let d ← d.settleNarrowing id
    let d ← d.nameField id name
    return d.setData id (.simple attributes name)
  | _ => .ok d

def settleAllValues (root : ElementId) : Except Failure Draft := (d.walk root).foldlM settleValue d

end Schemata.Draft
