import Schemata.Search
import Schemata.TypeInfo

/-! The fields of a record type, its own and those of its bases. -/
namespace Schemata.TypeInfoArena

variable (arena : TypeInfoArena)

/-- The record at a place, if there is one. -/
def record? (id : TypeInfoId) : Option ClassShape :=
  match arena.get? id with
  | some ⟨_, .record c⟩ => some c
  | _ => none

/-- The places of the bases of a record, the last one first. -/
def basePlaces (id : TypeInfoId) : List TypeInfoId :=
  match arena.record? id with
  | some c => (c.bases.map arena.resolve).reverse
  | none => []

def ownFieldNames (id : TypeInfoId) : List String :=
  match arena.record? id with
  | some c => c.fields.keys
  | none => []

/-- The names of all fields of what the place resolves to, if that is a record. -/
def fieldNames (id : TypeInfoId) : Option (List String) :=
  let start := arena.resolve id
  if (arena.record? start).isSome then
    some ((Search.reach arena.basePlaces (arena.size + 1) [start]).flatMap arena.ownFieldNames)
  else none

end Schemata.TypeInfoArena

namespace Schemata.TypeInfoTable

/-- The arena with the same types at the same places. -/
def toArena (table : TypeInfoTable) : TypeInfoArena := ⟨table.infos.map some⟩

/-- The names of all fields of what the place resolves to, if that is a record. -/
def fieldNames (table : TypeInfoTable) (id : TypeInfoId) : Option (List String) :=
  table.toArena.fieldNames id

end Schemata.TypeInfoTable
