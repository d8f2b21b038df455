import Schemata.Draft

/-! Building the elements of a tree.

Each item gets at most one element. What an item owns is built with it; what it
points at across the tree is linked at once if it is finished, and later
otherwise. Unless references are to be preserved, a link to a mere alias goes to
what the alias stands for. -/
namespace Schemata

/-- What is built from: an admitted tree, and whether aliases stay elements. -/
structure Blueprint where
  tree : ItemTree
  preserveReferences : Bool

namespace Blueprint

open Search Build

variable (b : Blueprint)

/-! ### Reading the tree -/

/-- The type of an item never became known. -/
def unresolved (item : ItemId) : Failure :=
  (Cause.unresolvedTypeInfo (b.tree.qualifiedName item)).at (b.tree.item item).location

/-- A reference that changes nothing about its target. -/
def isAlias (item : ItemId) : Bool :=
  (b.tree.item item).kind = some .reference && !(b.tree.item item).isAugmenting

def aliasStep (item : ItemId) : Step ItemId ItemId :=
  if b.isAlias item then
    match (b.tree.item item).target? with
    | some (.item next) => .go next
    | _ => .halt item
  else .halt item

/-- The item that stands for `item`: the first one along its chain that is no alias. -/
def standIn (item : ItemId) : ItemId :=
  if b.preserveReferences then item
  else
    match chase b.aliasStep (b.tree.size + 1) item with
    | .ended last => last
    | .looped node => node

/-- The fundamental type that a declaration names. -/
def namedFundamental (i : Item) : Option Fundamental :=
  match i.target? with
  | some (.builtin type) => type.fundamental?
  | _ => none

def targetItem (item : ItemId) : Except Failure ItemId :=
  match (b.tree.item item).target? with
  | some (.item target) => .ok target
  | _ => .error (b.unresolved item)

/-- The values of an item's entries for constraints of a type. -/
def constraintsOf (metadata : Metadata) (type : Fundamental) : Constraints :=
  (metadata.filter fun key _ => type.hasAttribute key).mapValues fun _ entry => entry.value

/-- Those that were written on the item. -/
def explicitConstraintsOf (metadata : Metadata) (type : Fundamental) : Constraints :=
  constraintsOf (metadata.filter fun _ entry => entry.provenance = .explicit) type

def arityOf (item : ItemId) : Arity := (b.tree.item item).arity.getD .one

/-! ### Links -/

/-- Points a link at the element that stands for an item, now or once it is finished. -/
def link (owner : ElementId) (l : Link) (item : ItemId) : Build Unit :=
  modify fun d =>
    let item := b.standIn item
    match d.progress.find? item with
    | some (.finished target) => d.wire owner l target
    | _ => d.enqueue (.wire owner l item)

/-- Sees to it that an item gets an element, even if nothing links to it. -/
def ensure (item : ItemId) : Build Unit :=
  modify fun d => if d.progress.contains item then d else d.enqueue (.ensure item)

/-! ### One element of each kind

`own` builds the element of an item for its owner. -/

variable (own : ItemId → ElementId → Build ElementId)

/-- The parts of an object. -/
structure Parts where
  children : List ElementId := []
  definitions : List ElementId := []
  fields : OrderedMap String TypeInfoId := ∅

def addExtension (id extension : ElementId) : Build Unit :=
  modify fun d => d.modifyElement id fun e => { e with extensions := e.extensions ++ [extension] }

def addAttributeName (id : ElementId) (name : String) : Build Unit :=
  modify fun d => d.modifyElement id fun e =>
    { e with attributeNames := e.attributeNames ++ [name] }

/-- Builds a child of an object and notes what it is to it; `listed` says whether its name is listed
as that of an attribute. -/
def addChild (id : ElementId) (listed : Item → Bool) (parts : Parts) (child : ItemId) :
    Build Parts := do
  let c := b.tree.item child
  let element ← own child id
  if c.isExtension then
    addExtension id element
    return parts
  match c.effectiveName with
  | none => return { parts with children := parts.children ++ [element] }
  | some name =>
    let place ← placeOf child
    if listed c then addAttributeName id name
    return { parts with
      children := parts.children ++ [element], fields := parts.fields.insert name place }

/-- As `addChild`, with definitions kept apart. -/
def addCompoundChild (id : ElementId) (parts : Parts) (child : ItemId) : Build Parts := do
  let c := b.tree.item child
  if c.isIgnored then return parts
  if c.role = .definition && !c.isExtension then
    let element ← own child id
    return { parts with definitions := parts.definitions ++ [element] }
  b.addChild own id (fun c => c.role = .scalar) parts child

def buildCompound (item : ItemId) (id : ElementId) (place : TypeInfoId) : Build Unit := do
  let i := b.tree.item item
  let parts ← i.children.foldlM (b.addCompoundChild own id) {}
  let bases ← i.itemReferences.mapM placeOf
  modify fun d => (d.fill place ⟨b.arityOf item, .record ⟨bases, parts.fields⟩⟩).setData id
    (.compound parts.children parts.definitions (i.itemReferences.map fun _ => none) [])
  i.itemReferences.zipIdx.forM fun (base, index) => b.link id (.base index) base

/-- The field of a simple object's value, until its name is known. -/
def valuePlaceholder : String := "<fundamental>"

/-- The place of the scalar that an item stands for. -/
def scalarPlaceOf (item : ItemId) : Build TypeInfoId :=
  if (b.tree.item item).kind = some .simple then valuePlaceOf item else placeOf item

/-- The value of a simple object: the scalar of its synthetic child, or that of its source with the
constraints that the object writes itself. -/
def buildValue (item : ItemId) (place : TypeInfoId) : Build Unit := do
  match b.tree.syntheticChild item with
  | some child =>
    match namedFundamental (b.tree.item child) with
    | none => throw (b.unresolved child)
    | some type =>
      let constraints := constraintsOf (b.tree.item child).metadata type
      modify fun d => d.fill place ⟨.one, .scalar ⟨type, constraints⟩⟩
  | none =>
    match b.tree.simpleSources item with
    | [] => throw (b.unresolved item)
    | source :: _ =>
      let sourcePlace ← b.scalarPlaceOf source
      let overlay :=
        match b.tree.fundamentalOf item with
        | some type => explicitConstraintsOf (b.tree.item item).metadata type
        | none => ∅
      if overlay.isEmpty then modify fun d => d.fill place ⟨.one, .ref sourcePlace⟩
      else
        modify fun d => { d with narrowings := d.narrowings.insert place ⟨sourcePlace, overlay⟩ }
      ensure source

def addSimpleChild (synthetic : Option ItemId) (id : ElementId) (parts : Parts)
    (child : ItemId) : Build Parts :=
  if (b.tree.item child).isIgnored || some child = synthetic then return parts
  else b.addChild own id (fun _ => true) parts child

def buildSimple (item : ItemId) (id : ElementId) (place : TypeInfoId) : Build Unit := do
  let valuePlace ← valuePlaceOf item
  b.buildValue item valuePlace
  let synthetic := b.tree.syntheticChild item
  let parts ← (b.tree.item item).children.foldlM (b.addSimpleChild own synthetic id)
    { fields := OrderedMap.ofList [(valuePlaceholder, valuePlace)] }
  modify fun d => (d.fill place ⟨b.arityOf item, .record ⟨[], parts.fields⟩⟩).setData id
    (.simple parts.children valuePlaceholder)

/-- An alternative is built with its variant, unless something else stands for it. -/
def addVariation (id : ElementId) (alternative : ItemId) :
    Build (TypeInfoId × Option ElementId) := do
  let item := b.standIn alternative
  let place ← placeOf item
  if item = alternative then return (place, some (← own alternative id))
  return (place, none)

def buildVariant (item : ItemId) (id : ElementId) (place : TypeInfoId) : Build Unit := do
  let alternatives := (b.tree.item item).alternatives
  let variations ← alternatives.mapM (b.addVariation own id)
  modify fun d => (d.fill place ⟨b.arityOf item, .anyOf (variations.map Prod.fst)⟩).setData id
    (.variant (variations.map Prod.snd))
  alternatives.zipIdx.forM fun (alternative, index) =>
    if b.standIn alternative = alternative then return ()
    else b.link id (.variation index) alternative

/-- The type of an element that refers to another item: its target's, or, for a reference that
changes a fundamental, that fundamental with the constraints of the reference. -/
def referenceShape (item target : ItemId) : Build Shape := do
  let narrowed : Option Fundamental ←
    match b.tree.chainEnd item with
    | .error failure => throw failure
    | .ok (.item last) =>
      pure (if (b.tree.item last).kind = some .fundamental then
        namedFundamental (b.tree.item last) else none)
    | .ok (.builtin _) => pure none
  match narrowed, (b.tree.item item).isAugmenting with
  | some type, true =>
    return .scalar ⟨type, constraintsOf (b.tree.item item).metadata type⟩
  | _, _ => return .ref (← placeOf (b.standIn target))

def buildReference (item : ItemId) (id : ElementId) (place : TypeInfoId) : Build Unit := do
  let target ← b.targetItem item
  let shape ← b.referenceShape item target
  modify fun d => (d.fill place ⟨b.arityOf item, shape⟩).setData id (.reference none)
  b.link id .target target

def buildList (item : ItemId) (id : ElementId) (place : TypeInfoId) : Build Unit := do
  let target ← b.targetItem item
  let targetPlace ← placeOf (b.standIn target)
  modify fun d => (d.fill place ⟨b.arityOf item, .ref targetPlace⟩).setData id (.list none)
  b.link id .target target

def buildFundamental (item : ItemId) (id : ElementId) (place : TypeInfoId) : Build Unit := do
  match namedFundamental (b.tree.item item) with
  | none => throw (b.unresolved item)
  | some type =>
    let constraints := constraintsOf (b.tree.item item).metadata type
    modify fun d => (d.fill place ⟨b.arityOf item, .scalar ⟨type, constraints⟩⟩).setData id
      (.fundamental type)

/-! ### Any element -/

/-- Gives the element of an item its type and its data. -/
def build (item : ItemId) (id : ElementId) (place : TypeInfoId) : Build Unit :=
  match (b.tree.item item).kind with
  | none => throw (b.unresolved item)
  | some .fundamental => b.buildFundamental item id place
  | some .compound => b.buildCompound own item id place
  | some .simple => b.buildSimple own item id place
  | some .variant => b.buildVariant own item id place
  | some .reference => b.buildReference item id place
  | some .list => b.buildList item id place
  | some .any => modify fun d => (d.fill place ⟨b.arityOf item, .any⟩).setData id .any
  | some .custom => modify fun d => (d.fill place ⟨b.arityOf item, .custom⟩).setData id .custom
  | some .extension =>
    modify fun d => (d.fill place ⟨.one, .extension⟩).setData id
      (.extension (b.tree.item item).arguments)

/-- Allocates the element of an item and the place of its type. -/
def start (item : ItemId) (parent : Option ElementId) : Build (ElementId × TypeInfoId) := do
  let id := (← get).nextId
  modify fun d => { d with progress := d.progress.insert item (.started id) }
  let place ← placeOf item
  let i := b.tree.item item
  let element : Element (Option ElementId) :=
    { name := i.effectiveName, parent, typeInfo := place, isDefinition := i.role = .definition,
      location := i.location }
  modify fun d => { d with elements := d.elements.push ⟨element, item⟩ }
  return (id, place)

/-- The element of an item, built on first request. An element that was first asked for by a link
learns its parent when its owner asks. -/
def elementFor : Nat → ItemId → Option ElementId → Build ElementId
  | 0, item, _ => throw (b.unresolved item)
  | bound + 1, item, parent => do
    match (← get).progress.find? item with
    | some progress =>
      if parent.isSome then
        modify fun d => d.modifyElement progress.id fun e => { e with parent }
      return progress.id
    | none =>
      let (id, place) ← b.start item parent
      b.build (fun child owner => elementFor bound child (some owner)) item id place
      modify fun d => { d with progress := d.progress.insert item (.finished id) }
      return id

/-! ### The whole tree -/

/-- The element of an item; elements are nested no deeper than there are items. -/
def elementOf (item : ItemId) : Build ElementId := b.elementFor (b.tree.size + 1) item none

def perform : Task → Build Unit
  | .wire owner l item => do
    let target ← b.elementOf item
    modify fun d => d.wire owner l target
  | .ensure item => do
    let _ ← b.elementOf item
    return ()

/-- Performs tasks, first in first out, as long as there are any. -/
def performAll : Nat → Build Unit
  | 0 => return ()
  | bound + 1 => do
    match (← get).tasks with
    | [] => return ()
    | task :: rest =>
      modify fun d => { d with tasks := rest }
      b.perform task
      performAll bound

/-- No item leaves more tasks than it has references and alternatives, and two. -/
def taskBound : Nat :=
  b.tree.items.foldl (fun n i => n + i.references.length + i.alternatives.length + 2) 0

/-- Builds the elements of the whole tree and yields that of the root. -/
def assemble : Build ElementId := do
  let root ← b.elementOf ItemTree.root
  b.performAll b.taskBound
  return root

end Blueprint
end Schemata
