import Schemata.Chain
import Schemata.Config
import Schemata.Plugin

/-! The attributes of every item, and the values it does not set itself.

Which attributes an item may carry follows from its kind (for a reference, the
kind at the end of its chain), from the fundamental type it wraps, from the
plugin and from its arity. Configured values then fill attributes that the item
leaves open. At last a reference takes over entries of its target, and a simple
object those of its one source, for attributes of its own schema that are still
open; a name is never taken over. -/
namespace Schemata.ItemTree

variable (t : ItemTree)

/-! ### Schemas -/

/-- The kind that decides which attributes an item may carry. -/
def schemaKind (id : ItemId) : Except Failure (Option Kind) :=
  if (t.item id).kind = some .reference then t.endKind id else .ok (t.item id).kind

/-- The attributes that a kind brings to an item. -/
def kindAttributes (id : ItemId) (kind : Option Kind) : List Attribute :=
  match kind with
  | some kind => kind.attributes (t.fundamentalOf id)
  | none => []

/-- The attributes that an arity brings. -/
def arityAttributes (arity : Arity) : List Attribute :=
  if arity.isCollection then collectionAttributes
  else if arity.isOptional then Schemata.optionalAttributes
  else []

/-- The attributes that a plugin brings; which of its two lists an attribute comes from decides
whether it is required. -/
def pluginAttributes (plugin : Plugin) (i : Item) : List Attribute :=
  (plugin.requiredAttributes i).map (fun a => { a with required := true }) ++
    (plugin.optionalAttributes i).map fun a => { a with required := false }

def schemaFor (plugin : Plugin) (id : ItemId) : Except Failure Schema := do
  let kind ← t.schemaKind id
  let i := t.item id
  return Schema.ofAttributes (universalAttributes ++ t.kindAttributes id kind ++
    pluginAttributes plugin i ++ arityAttributes (i.arity.getD .one))

/-! ### Configured values -/

/-- Configured values for the attributes of the schema that have none. -/
def fill (values : OrderedMap String Value) (schema : Schema) (i : Item) : Metadata :=
  values.entries.foldl (fun metadata e =>
    if schema.contains e.1 && !metadata.contains e.1 then
      metadata.insert e.1 ⟨e.2, .config, i.location⟩
    else metadata) i.metadata

/-- The root and the extensions have no schema. -/
def hasSchema (i : Item) : Bool := i.parent.isSome && i.kind ≠ some .extension

def describeItem (plugin : Plugin) (values : OrderedMap String Value) (t : ItemTree)
    (id : ItemId) : Except Interrupted ItemTree :=
  if hasSchema (t.item id) then
    match t.schemaFor plugin id with
    | .ok schema =>
      .ok (t.modify id fun i => { i with metadata := fill values schema i, schema })
    | .error failure => .error ⟨failure, t⟩
  else .ok t

/-! ### Inherited entries -/

/-- The one source of a simple object, if there is no second one. -/
def simpleSource (id : ItemId) : Option ItemId :=
  match t.syntheticChild id, t.simpleSources id with
  | some child, [] => some child
  | none, [source] => some source
  | _, _ => none

/-- The item that an item inherits from. -/
def source (id : ItemId) : Option ItemId :=
  match (t.item id).kind with
  | some .simple => t.simpleSource id
  | some .reference => (t.item id).target?.bind Target.item?
  | _ => none

/-- The item's entries, and those of its source for attributes that it leaves open. -/
def inherit (i : Item) (source : Metadata) : Metadata :=
  let taken := source.filter fun key _ =>
    key ≠ Key.name && !i.metadata.contains key && i.schema.contains key
  i.metadata.insertAll (taken.mapValues fun _ entry => { entry with provenance := .cloned }).entries

/-- A tree in which some items have all of their entries. -/
structure Handover where
  tree : ItemTree
  done : List ItemId

/-- Hands an item what it inherits, after its source has got all of its own. The items in `waiting`
are in the middle of that and take nothing over a second time. -/
def handDown : Nat → List ItemId → Handover → ItemId → Handover
  | 0, _, h, _ => h
  | bound + 1, waiting, h, id =>
    if id ∈ h.done then h
    else
      match h.tree.source id with
      | none => { h with done := id :: h.done }
      | some source =>
        if id ∈ waiting then h
        else
          let h := handDown bound (id :: waiting) h source
          { tree := h.tree.modify id fun i =>
              { i with metadata := inherit i (h.tree.item source).metadata }
            done := id :: h.done }

/-- Hands down entries to some items, one after another. -/
def inheritAlong (l : List ItemId) : ItemTree :=
  (l.foldl (handDown (t.size + 1) []) ⟨t, []⟩).tree

def inheritMetadata : ItemTree := t.inheritAlong t.walk

/-! ### All items -/

def describe (plugin : Plugin) (config : Config) : Except Interrupted ItemTree :=
  (t.forEach (describeItem plugin (config.valuesFor plugin.name))).map inheritMetadata

end Schemata.ItemTree
