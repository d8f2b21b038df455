import Schemata.Admission.Alternatives
import Schemata.Admission.Entries
import Schemata.Admission.Names
import Schemata.Admission.Structure

/-! Whether a plugin can take a resolved tree.

Every item is checked once, in the order of the walk, and the first failure ends
the admission. On the way the metadata gets typed and filled, so that an admitted
tree is ready to be built from. -/
namespace Schemata.ItemTree

variable (t : ItemTree)

/-- The metadata of an item, checked, typed and filled. The root and the extensions keep theirs. -/
def admitEntries (options : Options) (id : ItemId) : Except Failure ItemTree :=
  let i := t.item id
  if i.parent.isNone || i.isExtension then .ok t
  else (i.admitMetadata options (t.qualifiedName id)).map fun i => t.modify id fun _ => i

/-- Every check of one item, in order. -/
def admitItem (plugin : Plugin) (options : Options) (t : ItemTree) (id : ItemId) :
    Except Failure ItemTree := do
  if (t.item id).isIgnored then return t
  t.checkKind plugin id
  t.checkNames plugin id
  t.checkAlternatives id
  let t ← t.admitEntries options id
  t.checkSimple id
  t.checkScalar id
  let t ← t.admitExtension plugin options id
  t.checkReferences id
  return t

/-- The tree as the plugin takes it. -/
def admitAll (plugin : Plugin) (options : Options) : Except Failure ItemTree :=
  t.walk.foldlM (admitItem plugin options) t

end Schemata.ItemTree
