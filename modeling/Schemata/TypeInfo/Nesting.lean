import Schemata.TypeInfo

/-! Alternatives within alternatives.

An alternative is nested when it is itself one of several alternatives, directly
or through refs, and everything on the way occurs exactly once. `flatten` puts
the alternatives of nested ones in their place. One that has been put somewhere
already stays as it is where it is met again, which also ends circles. -/
namespace Schemata.TypeInfoArena

variable (arena : TypeInfoArena)

def alternatives? (id : TypeInfoId) : Option (List TypeInfoId) :=
  match arena.get? id with
  | some ⟨_, .anyOf alternatives⟩ => some alternatives
  | _ => none

def nestedFrom : Nat → TypeInfoId → Option TypeInfoId
  | 0, _ => none
  | left + 1, id =>
    match arena.get? id with
    | some ⟨arity, .anyOf _⟩ => if arity.isExactlyOne then some id else none
    | some ⟨arity, .ref target⟩ => if arity.isExactlyOne then nestedFrom left target else none
    | _ => none

/-- The place of the alternatives that a place stands for. -/
def nested (id : TypeInfoId) : Option TypeInfoId := arena.nestedFrom (arena.size + 1) id

/-- Alternatives collected so far, and the places whose alternatives are among them. -/
structure Flattened where
  alternatives : List TypeInfoId
  expanded : List TypeInfoId

/-- Adds one alternative, or those nested in it. -/
def flattenOne (flattenAt : List TypeInfoId → TypeInfoId → Flattened) (sofar : Flattened)
    (id : TypeInfoId) : Flattened :=
  match arena.nested id with
  | some inner =>
    if inner ∈ sofar.expanded then { sofar with alternatives := sofar.alternatives ++ [id] }
    else
      let more := flattenAt (inner :: sofar.expanded) inner
      ⟨sofar.alternatives ++ more.alternatives, more.expanded⟩
  | none => { sofar with alternatives := sofar.alternatives ++ [id] }

/-- The alternatives at a place, nested ones replaced by theirs. -/
def flattenFrom : Nat → List TypeInfoId → TypeInfoId → Flattened
  | 0, expanded, _ => ⟨[], expanded⟩
  | bound + 1, expanded, id =>
    ((arena.alternatives? id).getD []).foldl (arena.flattenOne (flattenFrom bound)) ⟨[], expanded⟩

def flatten (id : TypeInfoId) : List TypeInfoId :=
  (arena.flattenFrom (arena.size + 1) [id] id).alternatives

/-- With the alternatives at a place, if there are some, flattened. -/
def flattenAt (id : TypeInfoId) : TypeInfoArena :=
  let flat := arena.flatten id
  arena.adjust id fun info =>
    match info.shape with
    | .anyOf _ => { info with shape := .anyOf flat }
    | _ => info

end Schemata.TypeInfoArena
