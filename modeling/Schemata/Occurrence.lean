import Schemata.Chain

/-! How often every item occurs.

A written arity stays. A reference without one has the arity of its target; for
everything else it is exactly one. What is found out for an item is kept for all
items on the way, also when the pass fails at a later one. -/
namespace Schemata.ItemTree

open Search

variable (t : ItemTree)

/-- An item's arity, or the item that it has its arity from. -/
def arityStep (id : ItemId) : Step ItemId Arity :=
  let i := t.item id
  match i.arity, i.kind, i.target? with
  | some arity, _, _ => .halt arity
  | none, some .reference, some (.item next) => .go next
  | none, _, _ => .halt .one

/-- With a settled arity. -/
def settledAt (arity : Arity) (i : Item) : Item := { i with arity := some arity }

/-- With a settled arity for each of these items. -/
def settle (arity : Arity) (ids : List ItemId) : ItemTree :=
  ids.foldr (fun id t => t.modify id (settledAt arity)) t

/-- Gives an item its arity, and so all items on the way to where that is from. A chain that comes
back to itself is reported at the item where it closes. -/
def settleArity (id : ItemId) : Except Interrupted ItemTree :=
  match chase t.arityStep (t.size + 1) id with
  | .ended arity => .ok (t.settle arity (trail t.arityStep (t.size + 1) id))
  | .looped node => .error ⟨t.circular node, t⟩

def settleArities : Except Interrupted ItemTree := t.forEach settleArity

end Schemata.ItemTree
