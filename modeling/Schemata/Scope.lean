import Schemata.ItemTree

/-! What a name stands for.

A reserved word stands for its builtin type. Any other name is a path of names
with points between them: it is looked for among the children of the item that
uses it, then among those of its parent, and so on up to the root, and the first
scope in which the whole path matches decides. An item never finds itself.

`bindNames` replaces the written names of every item by what they stand for and
turns the alternatives of variants into items. A pass over the tree that fails
reports, next to the failure, the tree as it left it. -/
namespace Schemata

/-- Why a pass over a tree stopped, and the tree as it left it. -/
structure Interrupted where
  failure : Failure
  tree : ItemTree

namespace ItemTree

variable (t : ItemTree)

/-- One step for every item of the walk, in its order, until one fails. -/
def forEach (step : ItemTree → ItemId → Except Interrupted ItemTree) :
    Except Interrupted ItemTree := t.walk.foldlM step t

/-! ### Looking a name up -/

/-- The names of a path. -/
def pathNames (name : String) : List String :=
  (Text.split (· == '.') name.toList).map String.ofList

/-- The item at the end of a path, which no step may take to `self`. -/
def followPath (self : ItemId) : ItemId → List String → Option ItemId
  | scope, [] => some scope
  | scope, name :: rest =>
    match t.childNamedExcept (some self) scope name with
    | some child => followPath self child rest
    | none => none

/-- What `name` stands for where `self` uses it. -/
def lookup (self : ItemId) (name : String) : Option Target :=
  match Builtin.ofKeyword? name with
  | some type => some (.builtin type)
  | none =>
    ((t.ancestry self).findSome? fun scope => t.followPath self scope (pathNames name)).map .item

/-! ### Binding -/

/-- With a reference from one item, which its target remembers. -/
def refer (id : ItemId) (target : Target) : ItemTree :=
  let referring := t.modify id fun i => { i with references := i.references ++ [target] }
  match target with
  | .item named => referring.modify named fun i => { i with referencedBy := i.referencedBy ++ [id] }
  | .builtin _ => referring

def bindName (id : ItemId) (name : String) (location : Location) : Except Interrupted ItemTree :=
  match t.lookup id name with
  | some target => .ok (t.refer id target)
  | none => .error ⟨(Cause.unresolvedReference name).at location, t⟩

/-- An alternative becomes an item without a name that refers to what it names. -/
def bindAlternative (id : ItemId) (a : Alternative) : Except Interrupted ItemTree :=
  let item : Item := { name := none, form := .declaration, metadata := a.metadata,
                       location := a.location }
  (t.pushAlternative id item).bindName t.nextId a.name a.location

def bindReference (id : ItemId) : RawReference → Except Interrupted ItemTree
  | .name name location => t.bindName id name location
  | .variant alternatives => alternatives.foldlM (fun t a => t.bindAlternative id a) t

/-- Only extensions may have the name of a builtin type. -/
def hasReservedName (i : Item) : Bool := !i.isExtension && i.name.any Builtin.isReserved

/-- Binds everything written on an item. -/
def bindItem (id : ItemId) : Except Interrupted ItemTree :=
  let i := t.item id
  if hasReservedName i then
    .error ⟨(Cause.reservedName (i.name.getD "")).at i.location, t⟩
  else
    i.rawReferences.foldlM (fun t raw => t.bindReference id raw)
      (t.modify id fun i => { i with rawReferences := [] })

/-- Binds everything written in the tree. -/
def bindNames : Except Interrupted ItemTree := t.forEach bindItem

end ItemTree
end Schemata
