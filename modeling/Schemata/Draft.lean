import Schemata.Chain
import Schemata.Element

/-! A graph that is being built.

Elements and the places of their types are allocated when an item is first asked
for, so that an item that is met again on the way, directly or around a circle,
already has them. A link to an element that is not finished yet is left open and
put at the end of a queue of tasks. The place of a type stays empty until the
type is known. The type of a simple object's value has a place of its own; where
the object narrows what it takes over from its source, that place stays empty
until the end, and a `Narrowing` says how to fill it. -/
namespace Schemata

/-- How far the element of an item is. -/
inductive Progress
  | started (id : ElementId)
  | finished (id : ElementId)
deriving DecidableEq, Repr

def Progress.id : Progress → ElementId
  | started id => id
  | finished id => id

/-- A link of an element. -/
inductive Link
  | base (index : Nat)
  | variation (index : Nat)
  | target
deriving DecidableEq, Repr

/-- What is left for later. -/
inductive Task
  /-- Point a link of `owner` at the element of an item. -/
  | wire (owner : ElementId) (link : Link) (item : ItemId)
  /-- See to it that an item has an element. -/
  | ensure (item : ItemId)
deriving DecidableEq, Repr

/-- The scalar at another place, with some constraints replaced. -/
structure Narrowing where
  source : TypeInfoId
  overlay : Constraints
deriving Inhabited

/-- An element being built, and the item it is built from. -/
structure DraftElement where
  element : Element (Option ElementId)
  item : ItemId
deriving Inhabited

structure Draft where
  elements : Array DraftElement := #[]
  progress : OrderedMap ItemId Progress := ∅
  typeInfos : TypeInfoArena := {}
  /-- The place of the type of an item. -/
  places : OrderedMap ItemId TypeInfoId := ∅
  /-- The place of the type of a simple object's value. -/
  valuePlaces : OrderedMap ItemId TypeInfoId := ∅
  narrowings : OrderedMap TypeInfoId Narrowing := ∅
  tasks : List Task := []

/-- A step of building. -/
abbrev Build := StateT Draft (Except Failure)

namespace Draft

variable (d : Draft)

/-! ### Elements -/

def draftElement (id : ElementId) : DraftElement := d.elements.getD id.index default
def element (id : ElementId) : Element (Option ElementId) := (d.draftElement id).element

/-- The id that the next element gets. -/
def nextId : ElementId := ⟨d.elements.size⟩

def modifyElement (id : ElementId)
    (f : Element (Option ElementId) → Element (Option ElementId)) : Draft :=
  { d with elements := d.elements.modify id.index fun e => { e with element := f e.element } }

def setData (id : ElementId) (data : ElementData (Option ElementId)) : Draft :=
  d.modifyElement id fun e => { e with data }

/-- What can be reached from an element along the links that are there, depth first. -/
def walk (start : ElementId) : List ElementId :=
  Search.reach (fun id => (d.element id).edgesBy fun link => link) d.elements.size [start]

/-! ### Types -/

def fill (place : TypeInfoId) (info : TypeInfo) : Draft :=
  { d with typeInfos := d.typeInfos.fill place info }

/-- The scalar that a place resolves to, with all that narrows it. -/
def scalarFrom : Nat → TypeInfoId → Option ScalarShape
  | 0, _ => none
  | bound + 1, place =>
    let place := d.typeInfos.resolve place
    match d.narrowings.find? place with
    | some narrowing =>
      (scalarFrom bound narrowing.source).map fun s =>
        { s with constraints := s.constraints.insertAll narrowing.overlay.entries }
    | none =>
      match d.typeInfos.get? place with
      | some ⟨_, .scalar s⟩ => some s
      | _ => none

def scalarAt (place : TypeInfoId) : Option ScalarShape :=
  d.scalarFrom (d.narrowings.size + 1) place

/-- The scalar that an element wraps. -/
def scalarOf (id : ElementId) : Option ScalarShape :=
  match (d.element id).data with
  | .simple .. => (d.valuePlaces.find? (d.draftElement id).item).bind d.scalarAt
  | _ => d.scalarAt (d.element id).typeInfo

/-! ### Links -/

/-- With a link pointed at an element. An element that becomes a base remembers it. -/
def wire (owner : ElementId) (link : Link) (target : ElementId) : Draft :=
  match link, (d.element owner).data with
  | .base index, .compound children definitions bases derived =>
    let wired := d.setData owner
      (.compound children definitions (bases.set index (some target)) derived)
    match (wired.element target).data with
    | .compound children definitions bases derived =>
      wired.setData target (.compound children definitions bases (derived ++ [owner]))
    | _ => wired
  | .variation index, .variant variations =>
    d.setData owner (.variant (variations.set index (some target)))
  | .target, .reference _ => d.setData owner (.reference (some target))
  | .target, .list _ => d.setData owner (.list (some target))
  | _, _ => d

def enqueue (task : Task) : Draft := { d with tasks := d.tasks ++ [task] }

end Draft

/-! ### Places on first request -/

namespace Build

/-- The place of the type of an item. -/
def placeOf (item : ItemId) : Build TypeInfoId := do
  let d ← get
  match d.places.find? item with
  | some place => return place
  | none =>
    let place := d.typeInfos.nextId
    set { d with typeInfos := d.typeInfos.reserve, places := d.places.insert item place }
    return place

/-- The place of the type of a simple object's value. -/
def valuePlaceOf (item : ItemId) : Build TypeInfoId := do
  let d ← get
  match d.valuePlaces.find? item with
  | some place => return place
  | none =>
    let place := d.typeInfos.nextId
    set { d with
      typeInfos := d.typeInfos.reserve, valuePlaces := d.valuePlaces.insert item place }
    return place

end Build
end Schemata
