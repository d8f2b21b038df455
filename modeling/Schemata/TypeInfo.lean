import Schemata.Arity
import Schemata.Fundamental
import Schemata.Literal

/-! What values of an element look like.

A `TypeInfo` is a shape and how often it occurs. Shapes name others by their
place in an arena. While a graph is being built, a place can be reserved before
it is known what goes there, which is how a type can hold itself; a finished
table has every place filled. A place past the end counts as not filled, and a
`ref` to it leads nowhere. -/
namespace Schemata

structure TypeInfoId where
  index : Nat
deriving DecidableEq, Repr, Inhabited

def TypeInfoId.render (id : TypeInfoId) : String := s!"t{id.index}"

/-- A scalar with the values of its constraints. -/
structure ScalarShape where
  type : Fundamental
  constraints : Constraints := ∅
deriving Inhabited

/-- Named fields, and the types that bring further ones. -/
structure ClassShape where
  bases : List TypeInfoId := []
  fields : OrderedMap String TypeInfoId := ∅
deriving DecidableEq, Repr, Inhabited

inductive Shape
  | scalar (s : ScalarShape)
  | record (c : ClassShape)
  /-- Exactly one of these. -/
  | anyOf (alternatives : List TypeInfoId)
  /-- The shape of the target, with an arity of its own. -/
  | ref (target : TypeInfoId)
  | any
  | custom
  | extension
deriving Inhabited

structure TypeInfo where
  arity : Arity
  shape : Shape
deriving Inhabited

def Shape.ref? : Shape → Option TypeInfoId
  | ref target => some target
  | _ => none

/-- A finished arena. -/
structure TypeInfoTable where
  infos : Array TypeInfo := #[]
deriving Inhabited

/-- An arena in which places may still be reserved. -/
structure TypeInfoArena where
  slots : Array (Option TypeInfo) := #[]
deriving Inhabited

namespace TypeInfoTable

variable (table : TypeInfoTable)

def size : Nat := table.infos.size
def get? (id : TypeInfoId) : Option TypeInfo := table.infos[id.index]?

/-- Where a `ref` at this place leads. -/
def refAt (id : TypeInfoId) : Option TypeInfoId := (table.get? id).bind (·.shape.ref?)

/-- Goes on along refs; a step is taken before the number of steps left is looked at. -/
def resolveFrom : Nat → TypeInfoId → TypeInfoId
  | left, id =>
    match table.refAt id with
    | none => id
    | some target =>
      match left with
      | 0 => target
      | left + 1 => resolveFrom left target

/-- The first place along the refs from `id` that is no ref. A circle of refs is left after one
step more than the table has places. -/
def resolve (id : TypeInfoId) : TypeInfoId := table.resolveFrom table.size id

end TypeInfoTable

namespace TypeInfoArena

variable (arena : TypeInfoArena)

def size : Nat := arena.slots.size

/-- The place that the next type gets. -/
def nextId : TypeInfoId := ⟨arena.size⟩

/-- With one more place, to be filled later. -/
def reserve : TypeInfoArena := ⟨arena.slots.push none⟩

/-- With one more type. -/
def add (info : TypeInfo) : TypeInfoArena := ⟨arena.slots.push (some info)⟩

/-- With what is at a place replaced. -/
def fill (id : TypeInfoId) (info : TypeInfo) : TypeInfoArena :=
  ⟨arena.slots.setIfInBounds id.index (some info)⟩

def get? (id : TypeInfoId) : Option TypeInfo := (arena.slots[id.index]?).join

/-- With what is at a place, if it is filled, changed. -/
def adjust (id : TypeInfoId) (f : TypeInfo → TypeInfo) : TypeInfoArena :=
  ⟨arena.slots.modify id.index (Option.map f)⟩

def isPlaceholder (id : TypeInfoId) : Bool := (arena.get? id).isNone

/-- Where a `ref` at this place leads. -/
def refAt (id : TypeInfoId) : Option TypeInfoId := (arena.get? id).bind (·.shape.ref?)

/-- Goes on along refs while there are steps left. -/
def resolveFrom : Nat → TypeInfoId → TypeInfoId
  | 0, id => id
  | left + 1, id =>
    match arena.refAt id with
    | none => id
    | some target => resolveFrom left target

/-- The first place along the refs from `id` that is no ref. A circle of refs is left after one
step more than the arena has places. -/
def resolve (id : TypeInfoId) : TypeInfoId := arena.resolveFrom (arena.size + 1) id

/-- The finished table, or the first place that is not filled. -/
def finish : Except TypeInfoId TypeInfoTable :=
  match arena.slots.findIdx? Option.isNone with
  | some index => .error ⟨index⟩
  | none => .ok ⟨arena.slots.filterMap id⟩

end TypeInfoArena
end Schemata
