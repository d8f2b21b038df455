import Schemata.Chain

/-! The alternatives of a variant are single values.

An alternative that stands for another variant, as often as it is, counts as the
alternatives of that one. What is left has to occur exactly once. -/
namespace Schemata.ItemTree

open Search

variable (t : ItemTree)

/-- The variant that an alternative stands for, if it is another item. -/
def nestedVariant (id : ItemId) : Option ItemId :=
  match t.chainEnd id with
  | .ok (.item last) =>
    if last ≠ id ∧ (t.item last).kind = some .variant then some last else none
  | _ => none

/-- The alternatives in the place of one that stands for another variant. -/
def expansion (id : ItemId) : Option (List ItemId) :=
  match t.nestedVariant id with
  | some variant =>
    if (t.item id).arity.all Arity.isExactlyOne then some (t.item variant).alternatives else none
  | none => none

/-- The alternatives of a variant, those of nested variants in their place. -/
def flatAlternatives (id : ItemId) : List ItemId :=
  (reach (fun a => (t.expansion a).getD []) t.size (t.item id).alternatives).filter
    fun a => (t.expansion a).isNone

/-- What an alternative is called: after what it names. -/
def alternativeName (id : ItemId) : String :=
  match (t.item id).target? with
  | some (.item target) => t.qualifiedName target
  | some (.builtin type) => type.keyword
  | none => t.qualifiedName id

def checkAlternative (id : ItemId) : Except Failure Unit :=
  let arity := (t.item id).arity.getD .one
  if arity.isExactlyOne then .ok ()
  else
    .error ((Cause.invalidVariantArity (t.alternativeName id) arity.render).at
      (t.item id).location)

def checkAlternatives (id : ItemId) : Except Failure Unit :=
  if (t.item id).kind = some .variant then (t.flatAlternatives id).forM t.checkAlternative
  else .ok ()

end Schemata.ItemTree
