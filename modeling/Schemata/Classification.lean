import Schemata.Chain

/-! What kind of thing every item is.

An object is simple when some path of references from it ends at a fundamental
type, and compound otherwise. A simple object that names its fundamental type
itself hands it, together with the constraints meant for it, to a synthetic
first child. A declaration is what its single reference makes it: a variant, a
fundamental, an open type, a list, or a reference to another item. -/
namespace Schemata.ItemTree

open Search

variable (t : ItemTree)

def setKind (id : ItemId) (kind : Kind) : ItemTree :=
  t.modify id fun i => { i with kind := some kind }

/-! ### Objects -/

/-- Some path of references from object `id` ends at a fundamental type or at another object that is
known to be simple. -/
def reachesFundamental (id : ItemId) : Bool :=
  (reach t.referred t.size [id]).any fun x =>
    (x ≠ id && (t.item x).kind = some .simple) || t.namesFundamental x

/-- The fundamental types among the references of an item. -/
def ownFundamentals (id : ItemId) : List Fundamental :=
  (t.item id).references.filterMap fun target =>
    match target with
    | .builtin type => type.fundamental?
    | .item _ => none

/-- Hands the fundamental type of an object, and its constraints, to a synthetic first child. -/
def splitFundamental (id : ItemId) (type : Fundamental) : ItemTree :=
  let i := t.item id
  let target : Target := .builtin (.fundamental type)
  let child : Item :=
    { name := none, form := .declaration, references := [target],
      metadata := i.metadata.filter fun key _ => type.hasAttribute key,
      kind := some .fundamental, isSynthetic := true, location := i.location }
  (t.modify id fun i =>
    { i with references := i.references.erase target
             metadata := i.metadata.filter fun key _ => !type.hasAttribute key }).pushFirst id child

def classifyObject (id : ItemId) : Except Interrupted ItemTree :=
  if (t.item id).parent.isNone || !t.reachesFundamental id then .ok (t.setKind id .compound)
  else
    match t.ownFundamentals id with
    | [] => .ok (t.setKind id .simple)
    | [type] => .ok ((t.splitFundamental id type).setKind id .simple)
    | _ =>
      let cause := Cause.multipleFundamentalReferences (t.qualifiedName id)
      .error ⟨cause.at (t.item id).location, t⟩

/-! ### Declarations -/

/-- An item's arity, or where to look for it: behind a declaration without one. -/
def declaredArityStep (id : ItemId) : Step ItemId Arity :=
  let i := t.item id
  match i.arity with
  | some arity => .halt arity
  | none =>
    if i.form = .declaration ∧ i.alternatives = [] then
      match i.target? with
      | some (.item next) => .go next
      | _ => .halt .one
    else .halt .one

/-- The arity with which an item is declared. -/
def declaredArity (id : ItemId) : Except Failure Arity :=
  match chase t.declaredArityStep (t.size + 1) id with
  | .ended arity => .ok arity
  | .looped _ => .error (t.circular id)

/-- What the item says about refining its target's arity. -/
def readRefinesArity (metadata : Metadata) : Except Failure Bool :=
  match metadata.find? Key.refinesArity with
  | none => .ok false
  | some entry =>
    match AttributeType.bool.convert entry.value with
    | .ok value => .ok ((value.asBool?).getD false)
    | .error fault =>
      .error ((Cause.invalidAttributeValue Key.refinesArity fault.message).at entry.location)

/-- A collection of a collection is a list, unless it refines the arity. -/
def isList (id target : ItemId) (refines : Bool) : Except Failure Bool :=
  let i := t.item id
  if i.hasExplicitArity && i.arity.any Arity.isCollection then
    (t.declaredArity target).map fun arity => arity.isCollection && !refines
  else .ok false

/-- A declaration whose target is an item is a list of it or a reference to it. What it says about
refining the arity only decides that and is not kept. -/
def classifyLink (id target : ItemId) : Except Interrupted ItemTree :=
  let metadata := (t.item id).metadata
  let kept := t.modify id fun i => { i with metadata := i.metadata.erase Key.refinesArity }
  match readRefinesArity metadata >>= kept.isList id target with
  | .error failure => .error ⟨failure, kept⟩
  | .ok true => .ok (kept.setKind id .list)
  | .ok false =>
    .ok ((kept.modify id fun i =>
      { i with refinement := some ⟨i.hasExplicitArity, Metadata.explicitKeys i.metadata⟩ }).setKind
        id .reference)

def classifyDeclaration (id : ItemId) : Except Interrupted ItemTree :=
  let i := t.item id
  if !i.alternatives.isEmpty then .ok (t.setKind id .variant)
  else
    match i.target? with
    | none => .error ⟨(Cause.unresolvedReference (i.name.getD "")).at i.location, t⟩
    | some (.builtin (.fundamental _)) => .ok (t.setKind id .fundamental)
    | some (.builtin .any) => .ok (t.setKind id .any)
    | some (.builtin .custom) => .ok (t.setKind id .custom)
    | some (.item target) => t.classifyLink id target

/-! ### All items -/

/-- Gives an item its kind, unless it has one. -/
def classifyItem (id : ItemId) : Except Interrupted ItemTree :=
  if (t.item id).kind.isSome then .ok t
  else
    match (t.item id).form with
    | .extension => .ok (t.setKind id .extension)
    | .object => t.classifyObject id
    | .declaration => t.classifyDeclaration id

def classify : Except Interrupted ItemTree := t.forEach classifyItem

end Schemata.ItemTree
