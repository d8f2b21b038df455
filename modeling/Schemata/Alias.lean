import Schemata.Chain

/-! References that change something, and those that are mere aliases.

A reference is augmenting when it was written with an arity, or with a value for
an attribute that the kind at the end of its chain has and that is more than
documentation. -/
namespace Schemata.ItemTree

variable (t : ItemTree)

/-- The attributes with which a reference can change its target. -/
def augmentingAttributes (id : ItemId) : Except Failure (List Attribute) :=
  (t.endKind id).map fun kind =>
    match kind with
    | some kind => (kind.attributes (t.fundamentalOf id)).filter fun a => !a.metadataOnly
    | none => []

def isAugmenting (id : ItemId) (r : Refinement) : Except Failure Bool :=
  if r.hadExplicitArity then .ok true
  else
    (t.augmentingAttributes id).map fun attributes =>
      r.explicitKeys.any fun key => attributes.any (·.name == key)

def markAlias (id : ItemId) : Except Interrupted ItemTree :=
  let i := t.item id
  match i.kind, i.refinement with
  | some .reference, some r =>
    match t.isAugmenting id r with
    | .ok isAugmenting => .ok (t.modify id fun i => { i with isAugmenting })
    | .error failure => .error ⟨failure, t⟩
  | _, _ => .ok t

def markAliases : Except Interrupted ItemTree := t.forEach markAlias

end Schemata.ItemTree
