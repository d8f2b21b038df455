import Schemata.Item

/-! The tree of all declarations.

An `ItemTree` is an arena: items refer to each other by their index. The root is
the item at index zero, an object without a name for the source text. Every
other item stands in one list of its parent, its children or, for the
alternatives of a variant, its alternatives. `walk` goes through them from the
root, each item before its alternatives, and those before its children. -/
namespace Schemata

structure ItemTree where
  items : Array Item

namespace ItemTree

variable (t : ItemTree)

/-- The tree of an empty source text. -/
def ofSource (source : String) : ItemTree := ⟨#[(Item.object none).placedAt ⟨source, 1, 1⟩]⟩

def root : ItemId := ⟨0⟩
def size : Nat := t.items.size

/-- The item at an id of this tree. -/
def item (id : ItemId) : Item := t.items.getD id.index default

def ids : List ItemId := (List.range t.size).map ItemId.mk

/-! ### Growing and changing -/

/-- The id that the next item gets. -/
def nextId : ItemId := ⟨t.size⟩

/-- With one item changed. -/
def modify (id : ItemId) (f : Item → Item) : ItemTree := ⟨t.items.modify id.index f⟩

/-- With a new item under `parent`, which does not list it yet. -/
def add (parent : ItemId) (item : Item) : ItemTree :=
  ⟨t.items.push { item with id := t.nextId, parent := some parent }⟩

/-- With a new last child of `parent`. -/
def push (parent : ItemId) (item : Item) : ItemTree :=
  (t.add parent item).modify parent fun p => { p with children := p.children ++ [t.nextId] }

/-- With a new first child of `parent`. -/
def pushFirst (parent : ItemId) (item : Item) : ItemTree :=
  (t.add parent item).modify parent fun p => { p with children := t.nextId :: p.children }

/-- With a new last alternative of `parent`. -/
def pushAlternative (parent : ItemId) (item : Item) : ItemTree :=
  (t.add parent item).modify parent fun p => { p with alternatives := p.alternatives ++ [t.nextId] }

/-! ### Looking around -/

/-- The first child of this name other than `except`. -/
def childNamedExcept (except : Option ItemId) (parent : ItemId) (name : String) : Option ItemId :=
  (t.item parent).children.find? fun c => some c ≠ except ∧ (t.item c).name = some name

def childNamed (parent : ItemId) (name : String) : Option ItemId :=
  t.childNamedExcept none parent name

def ancestryFrom : Nat → Option ItemId → List ItemId
  | bound + 1, some id => id :: ancestryFrom bound (t.item id).parent
  | _, _ => []

/-- The item, its parent, and so on up to the root. -/
def ancestry (id : ItemId) : List ItemId := t.ancestryFrom t.size (some id)

/-- The names on the way from the root, with points between them, for messages. -/
def qualifiedName (id : ItemId) : String :=
  let below := (t.ancestry id).filter fun a => (t.item a).parent.isSome
  if below.isEmpty then "<root>"
  else ".".intercalate (below.reverse.map fun a => ((t.item a).name).getD "<anonymous>")

def walkFrom : Nat → ItemId → List ItemId
  | 0, _ => []
  | bound + 1, id =>
    id :: ((t.item id).alternatives ++ (t.item id).children).flatMap (walkFrom bound)

/-- All items, each before what it lists. -/
def walk : List ItemId := t.walkFrom t.size root

/-- The child split off to hold the fundamental type of a simple object. -/
def syntheticChild (id : ItemId) : Option ItemId :=
  (t.item id).children.find? fun c => (t.item c).isSynthetic

/-! ### How changes show -/

@[simp] theorem size_modify (id : ItemId) (f : Item → Item) : (t.modify id f).size = t.size := by
  simp [modify, size]

@[simp] theorem size_add (parent : ItemId) (i : Item) : (t.add parent i).size = t.size + 1 := by
  simp [add, size]

theorem item_modify (id j : ItemId) (f : Item → Item) :
    (t.modify id f).item j = if j = id ∧ j.index < t.size then f (t.item j) else t.item j := by
  obtain ⟨j⟩ := j
  obtain ⟨id⟩ := id
  simp only [item, modify, size, ItemId.mk.injEq, Array.getD_eq_getD_getElem?,
    Array.getElem?_modify]
  by_cases h : id = j
  · subst h
    by_cases hj : id < t.items.size <;> simp [hj]
  · have h' : ¬j = id := fun e => h e.symm
    simp [h, h']

theorem item_modify_self {id : ItemId} (h : id.index < t.size) (f : Item → Item) :
    (t.modify id f).item id = f (t.item id) := by
  rw [item_modify, if_pos ⟨rfl, h⟩]

theorem item_modify_of_ne {id j : ItemId} (h : j ≠ id) (f : Item → Item) :
    (t.modify id f).item j = t.item j := by
  rw [item_modify, if_neg fun he => h he.1]

theorem item_add (parent j : ItemId) (i : Item) :
    (t.add parent i).item j =
      if j = t.nextId then { i with id := t.nextId, parent := some parent } else t.item j := by
  obtain ⟨j⟩ := j
  simp only [item, add, nextId, size, ItemId.mk.injEq, Array.getD_eq_getD_getElem?,
    Array.getElem?_push]
  split <;> simp_all

end ItemTree
end Schemata
