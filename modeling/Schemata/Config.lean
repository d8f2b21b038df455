import Schemata.OrderedMap
import Schemata.Value

/-! Configured values.

A configuration gives values for attributes that a declaration leaves open, in
one section for all plugins and one for each plugin by name, where the latter
wins. -/
namespace Schemata

structure Config where
  sections : OrderedMap String (OrderedMap String Value) := ∅
deriving Inhabited

namespace Config

/-- The section whose values are for every plugin. -/
def shared : String := "*"

/-- With the value of a key in a section, whatever it was before. -/
def set (c : Config) (section_ key : String) (value : Value) : Config :=
  ⟨c.sections.insert section_ (((c.sections.find? section_).getD ∅).insert key value)⟩

def section? (c : Config) (name : String) : Option (OrderedMap String Value) :=
  c.sections.find? name

def isEmpty (c : Config) : Bool := c.sections.isEmpty

/-- The shared values, overlaid by those of the plugin's own section. -/
def valuesFor (c : Config) (plugin : String) : OrderedMap String Value :=
  ((c.section? shared).getD ∅).insertAll ((c.section? plugin).getD ∅).entries

end Config

/-- How lenient a compilation is, and what it fills in. -/
structure Options where
  /-- Ignore an extension that the plugin does not know, instead of failing. -/
  filterExtensions : Bool := false
  /-- Drop an attribute that an item may not carry, instead of failing. -/
  filterAttributes : Bool := false
  config : Config := {}
deriving Inhabited

end Schemata
