import Schemata.Scope
import Schemata.Search

/-! Chains of references between classified items.

A reference stands for its target, which may be a reference again. What is at the
end of such a chain decides what a reference is; a chain without an end is
circular. The fundamental type that an item wraps is found along the same
chains, and through the sources of simple objects. -/
namespace Schemata.ItemTree

open Search

variable (t : ItemTree)

/-- The chain of references from an item comes back to itself. -/
def circular (id : ItemId) : Failure :=
  (Cause.circularReference (t.qualifiedName id)).at (t.item id).location

/-! ### The end of a chain -/

def referenceStep (id : ItemId) : Step ItemId Target :=
  if (t.item id).kind = some .reference then
    match (t.item id).target? with
    | some (.item next) => .go next
    | some (.builtin type) => .halt (.builtin type)
    | none => .halt (.item id)
  else .halt (.item id)

/-- The first item from `id` on that is no reference, or the builtin type behind the last one. -/
def chainEnd (id : ItemId) : Except Failure Target :=
  match chase t.referenceStep (t.size + 1) id with
  | .ended target => .ok target
  | .looped _ => .error (t.circular id)

/-- The kind of what a target is. -/
def kindOf : Target → Option Kind
  | .item id => (t.item id).kind
  | .builtin (.fundamental _) => some .fundamental
  | .builtin .any => some .any
  | .builtin .custom => some .custom

/-- The kind of what stands at the end of the chain from `id`. -/
def endKind (id : ItemId) : Except Failure (Option Kind) := (t.chainEnd id).map t.kindOf

/-! ### The fundamental type behind an item -/

/-- Extensions and variants lead nowhere. -/
def isBarrier (id : ItemId) : Bool :=
  (t.item id).isExtension || !(t.item id).alternatives.isEmpty

/-- Where the references of an item lead. -/
def referred (id : ItemId) : List ItemId :=
  if t.isBarrier id then [] else (t.item id).itemReferences

/-- One of the references of an item is a fundamental type. -/
def namesFundamental (id : ItemId) : Bool :=
  !t.isBarrier id && (t.item id).references.any fun target =>
    match target with
    | .builtin type => type.isFundamental
    | .item _ => false

/-- Known to have a fundamental type. -/
def isScalar (id : ItemId) : Bool :=
  (t.item id).kind = some .simple || (t.item id).kind = some .fundamental

/-- Some path of references from `id` ends at a fundamental type. -/
def leadsToFundamental (id : ItemId) : Bool :=
  (reach t.referred t.size [id]).any fun x => t.isScalar x || t.namesFundamental x

/-- The referenced items that lead to a fundamental type. -/
def simpleSources (id : ItemId) : List ItemId :=
  (t.item id).itemReferences.filter t.leadsToFundamental

/-- The next item to ask for the fundamental type, if `id` itself does not decide. -/
def fundamentalStep (id : ItemId) : Step ItemId (Option Fundamental) :=
  match (t.item id).kind with
  | some .fundamental =>
    match (t.item id).target? with
    | some (.builtin type) => .halt type.fundamental?
    | _ => .halt none
  | some .reference =>
    match (t.item id).target? with
    | some (.item next) => .go next
    | _ => .halt none
  | some .simple =>
    match (t.syntheticChild id).or (t.simpleSources id).head? with
    | some next => .go next
    | none => .halt none
  | _ => .halt none

/-- The fundamental type that an item ultimately wraps, if any. -/
def fundamentalOf (id : ItemId) : Option Fundamental :=
  match chase t.fundamentalStep (t.size + 1) id with
  | .ended type => type
  | .looped _ => none

end Schemata.ItemTree
