import Schemata.Location
import Schemata.OrderedMap
import Schemata.Value

/-! The metadata of a declaration.

Every entry remembers where its value came from: it was written on the
declaration, or filled from the configuration, or from an attribute's default,
or copied from the declaration it refers to. -/
namespace Schemata

/-- Where a value came from. -/
inductive Provenance
  | explicit
  | config
  | default
  | cloned
deriving DecidableEq, Repr, Inhabited

/-- A value, where it came from and the place that answers for it. -/
structure Entry where
  value : Value
  provenance : Provenance
  location : Location
deriving Inhabited

/-- Entries by key, in the order in which they arrived. -/
abbrev Metadata := OrderedMap String Entry

namespace Metadata

/-- The value under a key. -/
def value? (m : Metadata) (key : String) : Option Value := (m.find? key).map Entry.value

/-- The keys written on the declaration itself. -/
def explicitKeys (m : Metadata) : List String :=
  (m.filter fun _ entry => entry.provenance = .explicit).keys

end Metadata
end Schemata
