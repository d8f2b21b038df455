import Schemata.Chain
import Schemata.Config
import Schemata.Plugin

/-! What an item may be, and what it may be made of.

The plugin has to welcome the kind of an item. A simple object has one source of
its value, is based on nothing else, and holds attributes only. An attribute is a
single scalar. An extension is one that the plugin knows, and nothing refers to
an extension. -/
namespace Schemata.ItemTree

variable (t : ItemTree)

/-! ### Kinds -/

/-- An alternative is part of its variant and no element of its own kind. -/
def isAlternative (id : ItemId) : Bool :=
  (t.item id).parent.any fun parent => (t.item parent).alternatives.contains id

def checkKind (plugin : Plugin) (id : ItemId) : Except Failure Unit :=
  match (t.item id).kind with
  | none => .ok ()
  | some kind =>
    if t.isAlternative id || plugin.capabilities.accepts kind then .ok ()
    else
      .error ((Cause.unsupportedKind (t.qualifiedName id) kind plugin.name).at (t.item id).location)

/-! ### Simple objects and attributes -/

/-- A base leads to a fundamental type. -/
def checkSimpleBase (id : ItemId) (base : Target) : Except Failure Unit :=
  let fail (name : String) : Except Failure Unit :=
    .error ((Cause.invalidSimpleBase (t.qualifiedName id) name).at (t.item id).location)
  match base with
  | .item b => if t.leadsToFundamental b then .ok () else fail (t.qualifiedName b)
  | .builtin type => fail type.keyword

/-- What a simple object holds is an attribute, an extension or its synthetic child. -/
def checkSimpleChild (child : ItemId) : Except Failure Unit :=
  let c := t.item child
  if c.isSynthetic || c.role = .scalar || c.isExtension then .ok ()
  else
    .error ((Cause.invalidAttributeItem (t.qualifiedName child)
      "simple objects may only contain attributes").at c.location)

/-- From how many places a simple object could have its value. -/
def valueSources (id : ItemId) : Nat :=
  (t.simpleSources id).length + (t.syntheticChild id).toList.length

def checkSimple (id : ItemId) : Except Failure Unit :=
  let i := t.item id
  if i.kind = some .simple then do
    if 1 < t.valueSources id then
      throw ((Cause.multipleSimpleSources (t.qualifiedName id)).at i.location)
    i.references.forM (t.checkSimpleBase id)
    i.children.forM t.checkSimpleChild
  else .ok ()

def checkScalar (id : ItemId) : Except Failure Unit :=
  let i := t.item id
  let fail (reason : String) : Except Failure Unit :=
    .error ((Cause.invalidAttributeItem (t.qualifiedName id) reason).at i.location)
  if i.role = .scalar then do
    if (← t.endKind id) ≠ some .fundamental then
      fail "attributes must resolve to a fundamental type"
    else if !(i.arity.getD .one).isSingle then fail "attributes cannot be collections"
    else return ()
  else .ok ()

/-! ### Extensions -/

/-- An extension is known to the plugin, or is ignored from here on. -/
def admitExtension (plugin : Plugin) (options : Options) (id : ItemId) : Except Failure ItemTree :=
  let i := t.item id
  let name := i.name.getD ""
  if !i.isExtension || (plugin.extension? name).isSome then .ok t
  else if options.filterExtensions then .ok (t.modify id fun i => { i with isIgnored := true })
  else .error ((Cause.invalidExtension name).at i.location)

/-- No chain of references ends at an extension. -/
def checkReference (id target : ItemId) : Except Failure Unit := do
  match ← t.chainEnd target with
  | .item last =>
    if (t.item last).isExtension then
      throw ((Cause.referenceToExtension (t.qualifiedName id) ((t.item last).name.getD "")).at
        (t.item id).location)
  | .builtin _ => return ()

def checkReferences (id : ItemId) : Except Failure Unit :=
  (t.item id).itemReferences.forM (t.checkReference id)

end Schemata.ItemTree
