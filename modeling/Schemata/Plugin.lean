import Schemata.Item

/-! Who the compiled schema is for.

A plugin generates something from a finished graph. It says which kinds of
element and which extensions it can deal with, and it may ask for attributes of
its own on each item. -/
namespace Schemata

/-- The kinds of element that a plugin has to opt in to, and how it wants references. -/
structure Capabilities where
  custom : Bool := false
  any : Bool := false
  reference : Bool := false
  list : Bool := false
  variant : Bool := false
  /-- Keep references that change nothing as elements of their own. -/
  preserveReferences : Bool := false
deriving DecidableEq, Repr, Inhabited

namespace Capabilities

/-- Every kind of element. -/
def allElements : Capabilities :=
  { custom := true, any := true, reference := true, list := true, variant := true }

def union (a b : Capabilities) : Capabilities where
  custom := a.custom || b.custom
  any := a.any || b.any
  reference := a.reference || b.reference
  list := a.list || b.list
  variant := a.variant || b.variant
  preserveReferences := a.preserveReferences || b.preserveReferences

/-- Whether `a` has whatever `b` has. -/
def contains (a b : Capabilities) : Bool := a.union b = a

/-- One bit for each capability, in the order of the fields. -/
def bits (c : Capabilities) : Nat :=
  c.custom.toNat + 2 * c.any.toNat + 4 * c.reference.toNat + 8 * c.list.toNat +
    16 * c.variant.toNat + 32 * c.preserveReferences.toNat

/-- What a plugin needs for elements of a kind, if it needs anything. -/
def requiredFor : Kind → Option Capabilities
  | .custom => some { custom := true }
  | .any => some { any := true }
  | .reference => some { reference := true }
  | .list => some { list := true }
  | .variant => some { variant := true }
  | .fundamental | .compound | .simple | .extension => none

/-- Whether elements of the kind are welcome. -/
def accepts (c : Capabilities) (kind : Kind) : Bool := (requiredFor kind).all c.contains

end Capabilities

/-- An extension that a plugin knows. -/
structure ExtensionRule where
  name : String
  /-- Whether it may stand in a scope more than once. -/
  allowDuplicates : Bool
deriving DecidableEq, Repr

structure Plugin where
  /-- Selects the plugin's section of the configuration. -/
  name : String
  capabilities : Capabilities
  extensions : List ExtensionRule := []
  /-- Attributes that have to be on the item, once its kind and arity are known. -/
  requiredAttributes : Item → List Attribute := fun _ => []
  /-- Attributes that may be on the item, once its kind and arity are known. -/
  optionalAttributes : Item → List Attribute := fun _ => []

/-- The first rule for an extension of this name. -/
def Plugin.extension? (p : Plugin) (name : String) : Option ExtensionRule :=
  p.extensions.find? (·.name == name)

end Schemata
