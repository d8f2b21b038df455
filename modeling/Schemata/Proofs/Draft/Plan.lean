import Mathlib.Algebra.GroupWithZero.Nat
import Schemata.Draft.Assembly

/-! What building an item asks for.

An element is made of the parts of its item: extensions, definitions and members,
each of which gets an element of its own. Besides, it has links to the elements
that stand for other items, and a simple object needs the source of its value. A
set of items that has all of these for each of its own is `Closed`; building from
an item of the set never leaves it. Whether the build of an item fails by itself,
its parts apart, depends on the tree alone (`fault`). -/
namespace Schemata

/-- What a child is to the element of its parent. -/
inductive Part
  | extension
  | definition
  | member
deriving DecidableEq, Repr

namespace Blueprint

variable (b : Blueprint)

/-! ### Parts -/

/-- What a child is to the element of an item, if it is anything. -/
def part? (item child : ItemId) : Option Part :=
  if (b.tree.item child).isIgnored then none
  else if (b.tree.item item).kind = some .simple ∧ b.tree.syntheticChild item = some child then none
  else if (b.tree.item child).isExtension then some .extension
  else if (b.tree.item item).kind = some .compound ∧ (b.tree.item child).role = .definition then
    some .definition
  else some .member

/-- Those of some children that are a certain part. -/
def among (item : ItemId) (part : Part) (children : List ItemId) : List ItemId :=
  children.filter fun c => b.part? item c = some part

/-- The children that get elements. -/
def builtChildren (item : ItemId) : List ItemId :=
  match (b.tree.item item).kind with
  | some .compound | some .simple => (b.tree.item item).children
  | _ => []

def parts (item : ItemId) (part : Part) : List ItemId := b.among item part (b.builtChildren item)

/-- A member whose name is listed as that of an attribute. -/
def isListed (item child : ItemId) : Bool :=
  (b.tree.item item).kind = some .simple || (b.tree.item child).role = .scalar

/-- The names of the listed ones of some children. -/
def listedNames (item : ItemId) (children : List ItemId) : List String :=
  ((b.among item .member children).filter (b.isListed item)).filterMap fun c =>
    (b.tree.item c).effectiveName

/-- The members among some children that have a name, with their names. -/
def named (item : ItemId) (children : List ItemId) : List (ItemId × String) :=
  (b.among item .member children).filterMap fun c =>
    ((b.tree.item c).effectiveName).map fun name => (c, name)

/-- The alternatives for which nothing else stands. -/
def ownAlternatives (item : ItemId) : List ItemId :=
  match (b.tree.item item).kind with
  | some .variant => (b.tree.item item).alternatives.filter fun a => b.standIn a = a
  | _ => []

/-! ### Links -/

/-- The item that a link of an element leads to, the item that stands for it apart. -/
def linked? (item : ItemId) (l : Link) : Option ItemId :=
  match (b.tree.item item).kind, l with
  | some .compound, .base index => (b.tree.item item).itemReferences[index]?
  | some .variant, .variation index => (b.tree.item item).alternatives[index]?
  | some .reference, .target | some .list, .target =>
    (b.tree.item item).target?.bind Target.item?
  | _, _ => none

/-- The item that a simple object has its value from. -/
def valueSource? (item : ItemId) : Option ItemId :=
  match (b.tree.item item).kind, b.tree.syntheticChild item with
  | some .simple, none => (b.tree.simpleSources item).head?
  | _, _ => none

/-- Everything that the element of an item is made of or owns. -/
def owned (item : ItemId) : List ItemId :=
  (b.builtChildren item).filter (fun c => (b.part? item c).isSome) ++ b.ownAlternatives item

/-- A set of items that has, with an item, all that building it asks for. -/
structure Closed (P : ItemId → Prop) : Prop where
  root : P ItemTree.root
  owned : ∀ item, P item → ∀ c ∈ b.owned item, P c
  bases : ∀ item, P item → (b.tree.item item).kind = some .compound →
    ∀ x ∈ (b.tree.item item).itemReferences, P x
  linked : ∀ item, P item → ∀ l x, b.linked? item l = some x → P (b.standIn x)
  source : ∀ item, P item → ∀ s, b.valueSource? item = some s → P s

theorem closed_true : b.Closed fun _ => True :=
  ⟨trivial, fun _ _ _ _ => trivial, fun _ _ _ _ _ => trivial, fun _ _ _ _ _ => trivial,
    fun _ _ _ _ => trivial⟩

/-! ### Failures -/

/-- How building an item fails by itself, if it does. -/
def fault (item : ItemId) : Option Failure :=
  match (b.tree.item item).kind with
  | none => some (b.unresolved item)
  | some .fundamental =>
    if (namedFundamental (b.tree.item item)).isNone then some (b.unresolved item) else none
  | some .simple =>
    match b.tree.syntheticChild item with
    | some child =>
      if (namedFundamental (b.tree.item child)).isNone then some (b.unresolved child) else none
    | none => if b.tree.simpleSources item = [] then some (b.unresolved item) else none
  | some .reference =>
    match b.targetItem item, b.tree.chainEnd item with
    | .error failure, _ => some failure
    | .ok _, .error failure => some failure
    | .ok _, .ok _ => none
  | some .list =>
    match b.targetItem item with
    | .error failure => some failure
    | .ok _ => none
  | _ => none

theorem cause_of_chainEnd_error {t : ItemTree} {id : ItemId} {failure : Failure}
    (h : t.chainEnd id = .error failure) : ∃ name, failure.cause = .circularReference name := by
  unfold ItemTree.chainEnd at h
  split at h
  · cases h
  · cases h
    exact ⟨_, rfl⟩

theorem cause_of_targetItem_error {b : Blueprint} {item : ItemId} {failure : Failure}
    (h : b.targetItem item = .error failure) :
    ∃ name, failure.cause = .unresolvedTypeInfo name := by
  unfold targetItem at h
  split at h
  · cases h
  · cases h
    exact ⟨_, rfl⟩

/-- An item fails because its type cannot become known, or because its chain has no end. -/
theorem chainEnd_of_fault {b : Blueprint} {item : ItemId} {failure : Failure}
    (h : b.fault item = some failure) : (∃ name, failure.cause = .unresolvedTypeInfo name) ∨
      b.tree.chainEnd item = .error failure := by
  have hunresolved : ∀ x, some (b.unresolved x) = some failure →
      ∃ name, failure.cause = .unresolvedTypeInfo name := fun x hx => by
    cases hx
    exact ⟨_, rfl⟩
  unfold fault at h
  split at h
  · exact .inl (hunresolved _ h)
  · split at h
    · exact .inl (hunresolved _ h)
    · cases h
  · split at h <;> split at h
    · exact .inl (hunresolved _ h)
    · cases h
    · exact .inl (hunresolved _ h)
    · cases h
  · split at h
    · next he =>
      cases h
      exact .inl (cause_of_targetItem_error he)
    · next he =>
      cases h
      exact .inr he
    · cases h
  · split at h
    · next he =>
      cases h
      exact .inl (cause_of_targetItem_error he)
    · cases h
  · cases h

theorem cause_of_fault {b : Blueprint} {item : ItemId} {failure : Failure}
    (h : b.fault item = some failure) : (∃ name, failure.cause = .unresolvedTypeInfo name) ∨
      ∃ name, failure.cause = .circularReference name :=
  (chainEnd_of_fault h).imp_right cause_of_chainEnd_error

/-! ### Counting -/

/-- More than the number of tasks that building an item leaves. -/
def weight (item : ItemId) : Nat :=
  (b.tree.item item).references.length + (b.tree.item item).alternatives.length + 2

/-- The items that have no element yet. -/
def unbuilt (d : Draft) : List ItemId :=
  b.tree.ids.filter fun item => (d.progress.find? item).isNone

/-- The tasks that are waiting and those that may still come. -/
def outstanding (d : Draft) : Nat := d.tasks.length + ((b.unbuilt d).map b.weight).sum

theorem taskBound_eq : b.taskBound = (b.tree.ids.map b.weight).sum := by
  unfold taskBound ItemTree.ids ItemTree.size
  rw [← Array.foldl_toList, List.map_map]
  have hitems : (List.range b.tree.items.size).map (b.weight ∘ ItemId.mk) =
      b.tree.items.toList.map fun i => i.references.length + i.alternatives.length + 2 := by
    refine List.ext_getElem (by simp) fun n h₁ h₂ => ?_
    simp only [List.length_map, List.length_range] at h₁
    simp [weight, ItemTree.item, h₁]
  have hsum : ∀ (l : List Item) (n : Nat),
      l.foldl (fun n i => n + i.references.length + i.alternatives.length + 2) n =
        n + (l.map fun i => i.references.length + i.alternatives.length + 2).sum := by
    intro l
    induction l with
    | nil => intro n; rfl
    | cons i rest ih =>
      intro n
      rw [List.foldl_cons, ih, List.map_cons, List.sum_cons]
      omega
  rw [hitems, hsum, Nat.zero_add]

end Blueprint
end Schemata
