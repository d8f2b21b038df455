import Schemata.Draft.Entries
import Schemata.Draft.Values
import Schemata.Graph
import Schemata.Plugin
import Schemata.TypeInfo.Nesting

/-! From an admitted tree to a finished graph.

The elements are assembled; then they get their metadata, the values of simple
objects get their names, and nested alternatives are put in place. A graph is
finished when every link points somewhere and every place of a type is filled. -/
namespace Schemata

namespace Draft

variable (d : Draft)

/-! ### Variants -/

def flattenVariant (d : Draft) (id : ElementId) : Draft :=
  match (d.element id).data with
  | .variant _ => { d with typeInfos := d.typeInfos.flattenAt (d.element id).typeInfo }
  | _ => d

def flattenVariants (root : ElementId) : Draft := (d.walk root).foldl flattenVariant d

/-! ### The graph -/

/-- The children of the root that were declared in the source itself. -/
def included (tree : ItemTree) (root : ElementId) : List ElementId :=
  match (d.element root).data with
  | .compound children .. =>
    children.filter fun c => !(tree.item (d.draftElement c).item).isExternal
  | _ => []

/-- The element with its links, if none of them is open. -/
def closeElement (e : Element (Option ElementId)) : Except Failure (Element ElementId) :=
  match e.data.traverseLinks fun link => link with
  | some data => .ok { e with data }
  | none => .error ((Cause.unresolvedLink (e.name.getD "<anonymous>")).at e.location)

/-- The failure that a place was never filled, named after the element whose type it is. -/
def unfilled (place : TypeInfoId) : Failure :=
  let owner := (d.elements.toList.map DraftElement.element).find? (·.typeInfo = place)
  (Cause.unresolvedTypeInfo ((owner.bind Element.name).getD place.render)).at
    ((owner.map Element.location).getD .builtin)

def finish : Except Failure Graph := do
  let elements ← (d.elements.toList.map DraftElement.element).mapM closeElement
  let typeInfos ← d.typeInfos.finish.mapError d.unfilled
  return ⟨elements.toArray, typeInfos⟩

end Draft

namespace ItemTree

variable (t : ItemTree)

/-- What is built from a tree for a plugin. -/
def blueprint (plugin : Plugin) : Blueprint := ⟨t, plugin.capabilities.preserveReferences⟩

/-- The finished graph of an admitted tree. -/
def build (plugin : Plugin) : Except Failure Compiled := do
  let (root, d) ← (t.blueprint plugin).assemble.run {}
  let included := d.included t root
  let d ← d.takeAllEntries t root
  let d ← d.settleAllValues root
  let graph ← (d.flattenVariants root).finish
  return ⟨graph, root, included⟩

end ItemTree
end Schemata
