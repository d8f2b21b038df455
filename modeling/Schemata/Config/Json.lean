import Schemata.Config.Fault
import Schemata.Json

/-! Configurations as JSON objects: sections by name, values by key.

The sections, and the values of each, come in the order of their names. A value
is text, a truth value, a number or a list of values. -/
namespace Schemata.Config

mutual

/-- The value that a document is, if it is one. -/
def documentValue : Document → Option Value
  | .text s => some (.text s)
  | .bool b => some (.bool b)
  | .int i => some (.int (Int64.ofInt i))
  | .number x => some (.number x)
  | .array ds => (documentValues ds).map .list
  | .null => none
  | .object _ => none

def documentValues : List Document → Option (List Value)
  | [] => some []
  | d :: ds =>
    match documentValue d, documentValues ds with
    | some v, some vs => some (v :: vs)
    | _, _ => none

end

/-- Adds a section. -/
def addJsonSection (source : String) (c : Config) (m : String × Document) :
    Except ConfigFault Config :=
  match m.2 with
  | .object members =>
    members.foldlM (fun c e =>
      match documentValue e.2 with
      | some v => .ok (c.set m.1 e.1 v)
      | none => refuse source s!"unsupported value for '{e.1}'") c
  | _ => refuse source s!"section '{m.1}' must be an object"

/-- The configuration that a JSON text gives. -/
def ofJson (text source : String) : Except ConfigFault Config :=
  match Json.read text with
  | none => .error .malformed
  | some (.object members) => members.foldlM (addJsonSection source) {}
  | some _ => refuse source "expected an object of sections"

end Schemata.Config
