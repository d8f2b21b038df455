import Schemata.Chain
import Schemata.Plugin

/-! Names within a scope.

The children of an item have pairwise different names, and an object does not
use a name again that one of its bases already has, directly or through other
bases. An extension may be repeated only if the plugin says so. -/
namespace Schemata.ItemTree

open Search

variable (t : ItemTree)

/-! ### Inherited names -/

/-- Where the bases of `id` are looked for, which is not in `id` itself. -/
def basesBeyond (id x : ItemId) : List ItemId :=
  if x = id ∨ (t.item x).isExtension then [] else (t.item x).itemReferences

/-- Every base of an object, through aliases and other bases. -/
def allBases (id : ItemId) : List ItemId :=
  (reach (t.basesBeyond id) t.size (t.item id).itemReferences).filter (· ≠ id)

/-- The names of what an object holds: not those of extensions, nor of a synthetic child. -/
def heldNames (id : ItemId) : List String :=
  (t.item id).children.filterMap fun c =>
    if (t.item c).isExtension || (t.item c).isSynthetic then none else (t.item c).effectiveName

/-- The names that an object has from its bases. -/
def inheritedNames (id : ItemId) : List String :=
  if (t.item id).form = .object then
    ((t.allBases id).filter fun base => (t.item base).form = .object).flatMap t.heldNames
  else []

/-! ### One scope -/

/-- The names that are taken in a scope. -/
structure Taken where
  names : List String
  extensions : List String := []

/-- Takes the name of one more extension. The plugin's rule decides about a repeated one; without
a rule the name is nobody's concern here. -/
def takeExtension (plugin : Plugin) (taken : Taken) (i : Item) : Except Failure Taken :=
  match i.name with
  | none => .ok taken
  | some name =>
    match plugin.extension? name with
    | none => .ok taken
    | some rule =>
      if name ∈ taken.extensions then
        if rule.allowDuplicates then .ok taken
        else .error ((Cause.duplicateExtension name).at i.location)
      else .ok { taken with extensions := name :: taken.extensions }

/-- Takes the name of one more item. -/
def takeName (taken : Taken) (i : Item) : Except Failure Taken :=
  match i.effectiveName with
  | none => .ok taken
  | some name =>
    if name ∈ taken.names then .error ((Cause.duplicateName name).at i.location)
    else .ok { taken with names := name :: taken.names }

def take (plugin : Plugin) (taken : Taken) (i : Item) : Except Failure Taken :=
  if i.isIgnored || i.isSynthetic then .ok taken
  else if i.isExtension then takeExtension plugin taken i
  else takeName taken i

/-- No two children of an item, and no child and base, have one name. -/
def checkNames (plugin : Plugin) (id : ItemId) : Except Failure Unit := do
  let _ ← ((t.item id).children.map t.item).foldlM (take plugin) ⟨t.inheritedNames id, []⟩

end Schemata.ItemTree
