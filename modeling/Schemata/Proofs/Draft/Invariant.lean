import Schemata.Proofs.Draft.Access
import Schemata.Proofs.Draft.Plan
import Schemata.Proofs.OrderedMap

/-! What holds of a graph while it is being built.

`Indexed` is the bookkeeping: elements and items answer to each other, every
place of a type belongs to one item, as the place of its own type or of its
value, and nothing names what is not there. `Described` says what a finished
element looks like: its parts, its type and its links are those of its item,
where a link that is still open has a task waiting for it. `Sound` is both,
together with what is known of parents and tasks; `Grows` says what building more
leaves as it was. -/
namespace Schemata

namespace ElementData

variable {link : Type}

/-- The children of an object or the attributes of a simple one. -/
def members : ElementData link → List ElementId
  | compound children .. => children
  | simple attributes _ => attributes
  | _ => []

def definitions : ElementData link → List ElementId
  | compound _ definitions .. => definitions
  | _ => []

/-- The name of the field of a simple object's value. -/
def valueName? : ElementData link → Option String
  | simple _ name => some name
  | _ => none

/-- What a link holds, if there is such a link. -/
def linkAt : ElementData link → Link → Option link
  | compound _ _ bases _, .base index => bases[index]?
  | variant variations, .variation index => variations[index]?
  | reference target, .target => some target
  | list target, .target => some target
  | _, _ => none

end ElementData

/-- The item that a task asks for. -/
def Task.item : Task → ItemId
  | wire _ _ item => item
  | ensure item => item

/-! ### Bookkeeping -/

namespace Draft

/-- Items, elements and places of types answer to each other. -/
structure Indexed (d : Draft) : Prop where
  progress : ∀ item p, d.progress.find? item = some p →
    p.id.index < d.elements.size ∧ d.itemOf p.id = item
  element : ∀ id, id.index < d.elements.size → d.idOf? (d.itemOf id) = some id
  place : ∀ id, id.index < d.elements.size →
    d.places.find? (d.itemOf id) = some (d.element id).typeInfo
  places : (d.places.values ++ d.valuePlaces.values).Perm d.typeInfos.ids
  filled : ∀ item place, d.places.find? item = some place → (d.typeInfos.get? place).isSome →
    (d.idOf? item).isSome
  valueFilled : ∀ item place, d.valuePlaces.find? item = some place →
    (d.typeInfos.get? place).isSome ∨ (d.narrowings.find? place).isSome → (d.idOf? item).isSome
  narrowed : ∀ place n, d.narrowings.find? place = some n →
    d.typeInfos.get? place = none ∧ n.source.index < d.typeInfos.size ∧
      ∃ item, d.valuePlaces.find? item = some place
  types : ∀ place info, d.typeInfos.get? place = some info →
    ∀ q ∈ info.shape.mentioned, q.index < d.typeInfos.size
  mentioned : ∀ id, ∀ x ∈ (d.element id).mentioned, x.index < d.elements.size

/-- The same but for the parent. -/
def Untouched (d d' : Draft) (id : ElementId) : Prop :=
  d'.element id = { d.element id with parent := (d'.element id).parent }

/-- What is the own business of an element that is being built stays as it was. -/
structure Spared (d d' : Draft) (item : ItemId) (id : ElementId) : Prop where
  element : d.Untouched d' id
  place : ∀ p, d.places.find? item = some p → d'.typeInfos.get? p = d.typeInfos.get? p
  valuePlace : ∀ p, d.valuePlaces.find? item = some p →
    d'.typeInfos.get? p = d.typeInfos.get? p ∧ d'.narrowings.find? p = d.narrowings.find? p

/-- What building more leaves as it was. Of the elements that are being built only `mine` may change
in more than its parent; finished ones may change in their links. -/
structure Grows (mine : Option ElementId) (d d' : Draft) : Prop where
  size : d.elements.size ≤ d'.elements.size
  item : ∀ id, id.index < d.elements.size → d'.itemOf id = d.itemOf id
  typeInfo : ∀ id, id.index < d.elements.size → (d'.element id).typeInfo = (d.element id).typeInfo
  parent : ∀ id, (d.element id).parent.isSome → (d'.element id).parent.isSome
  progress : ∀ item p, d.progress.find? item = some p →
    ∃ p', d'.progress.find? item = some p' ∧ p'.id = p.id ∧ (some p.id ≠ mine → p' = p)
  finished : ∀ item p, d.progress.find? item = none → d'.progress.find? item = some p →
    p = .finished p.id ∨ some p.id = mine
  spared : ∀ item id, some id ≠ mine → d.progress.find? item = some (.started id) →
    d.Spared d' item id
  places : ∀ item p, d.places.find? item = some p → d'.places.find? item = some p
  valuePlaces : ∀ item p, d.valuePlaces.find? item = some p → d'.valuePlaces.find? item = some p
  filled : ∀ place info, d.typeInfos.get? place = some info → d'.typeInfos.get? place = some info
  narrowings : ∀ place n, d.narrowings.find? place = some n → d'.narrowings.find? place = some n
  tasks : ∀ task ∈ d.tasks, task ∈ d'.tasks

theorem Untouched.refl (d : Draft) (id : ElementId) : d.Untouched d id := rfl

theorem Untouched.trans {a b c : Draft} {id : ElementId} (hab : a.Untouched b id)
    (hbc : b.Untouched c id) : a.Untouched c id := by
  unfold Untouched at *
  rw [hbc, hab]

theorem Spared.refl (d : Draft) (item : ItemId) (id : ElementId) : d.Spared d item id :=
  ⟨.refl d id, fun _ _ => rfl, fun _ _ => ⟨rfl, rfl⟩⟩

theorem Grows.refl (mine : Option ElementId) (d : Draft) : d.Grows mine d where
  size := Nat.le_refl _
  item _ _ := rfl
  typeInfo _ _ := rfl
  parent _ h := h
  progress _ p h := ⟨p, h, rfl, fun _ => rfl⟩
  finished _ _ h h' := by rw [h] at h'; cases h'
  spared item id _ _ := .refl d item id
  places _ _ h := h
  valuePlaces _ _ h := h
  filled _ _ h := h
  narrowings _ _ h := h
  tasks _ h := h

theorem Grows.idOf? {mine : Option ElementId} {d d' : Draft} (g : d.Grows mine d') {item : ItemId}
    {id : ElementId} (h : d.idOf? item = some id) : d'.idOf? item = some id := by
  obtain ⟨p, hp, rfl⟩ := Option.map_eq_some_iff.1 h
  obtain ⟨p', hp', hid, _⟩ := g.progress item p hp
  unfold Draft.idOf?
  rw [hp', ← hid]
  rfl

/-- An element that is being built is so later, unless it is `mine`. -/
theorem Grows.started {mine : Option ElementId} {d d' : Draft} (g : d.Grows mine d')
    {item : ItemId} {id : ElementId} (hne : some id ≠ mine)
    (h : d.progress.find? item = some (.started id)) :
    d'.progress.find? item = some (.started id) := by
  obtain ⟨p', hp', _, heq⟩ := g.progress item _ h
  rw [hp', heq hne]

theorem Grows.trans {mine : Option ElementId} {a b c : Draft} (hab : a.Grows mine b)
    (hbc : b.Grows mine c) : a.Grows mine c where
  size := Nat.le_trans hab.size hbc.size
  item id h := (hbc.item id (Nat.lt_of_lt_of_le h hab.size)).trans (hab.item id h)
  typeInfo id h := (hbc.typeInfo id (Nat.lt_of_lt_of_le h hab.size)).trans (hab.typeInfo id h)
  parent id h := hbc.parent id (hab.parent id h)
  progress item p h := by
    obtain ⟨q, hq, hid, heq⟩ := hab.progress item p h
    obtain ⟨r, hr, hid', heq'⟩ := hbc.progress item q hq
    exact ⟨r, hr, hid'.trans hid, fun hne => (heq' (hid ▸ hne)).trans (heq hne)⟩
  finished item p ha hc := by
    cases hb : b.progress.find? item with
    | none => exact hbc.finished item p hb hc
    | some q =>
      obtain ⟨p', hp', hid, heq⟩ := hbc.progress item q hb
      rw [hc] at hp'
      cases hp'
      rcases hab.finished item q ha hb with hq | hq
      · by_cases hm : some q.id = mine
        · exact .inr (hid ▸ hm)
        · rw [heq hm]
          exact .inl hq
      · exact .inr (hid ▸ hq)
  spared item id hne h := by
    have h₁ := hab.spared item id hne h
    have h₂ := hbc.spared item id hne (hab.started hne h)
    refine ⟨h₁.element.trans h₂.element, fun p hp => ?_, fun p hp => ?_⟩
    · exact (h₂.place p (hab.places _ _ hp)).trans (h₁.place p hp)
    · have h₂' := h₂.valuePlace p (hab.valuePlaces _ _ hp)
      exact ⟨h₂'.1.trans (h₁.valuePlace p hp).1, h₂'.2.trans (h₁.valuePlace p hp).2⟩
  places item p h := hbc.places item p (hab.places item p h)
  valuePlaces item p h := hbc.valuePlaces item p (hab.valuePlaces item p h)
  filled place info h := hbc.filled place info (hab.filled place info h)
  narrowings place n h := hbc.narrowings place n (hab.narrowings place n h)
  tasks task h := hbc.tasks task (hab.tasks task h)

theorem Grows.weaken {d d' : Draft} (g : d.Grows none d') (mine : Option ElementId) :
    d.Grows mine d' :=
  { g with
    progress := fun item p h => by
      obtain ⟨p', hp', hid, heq⟩ := g.progress item p h
      exact ⟨p', hp', hid, fun _ => heq (by simp)⟩
    finished := fun item p h h' => .inl ((g.finished item p h h').resolve_right (by simp))
    spared := fun item id _ h => g.spared item id (by simp) h }

end Draft

namespace Blueprint

variable (b : Blueprint)

/-! ### What a finished element looks like -/

/-- The elements of some items. -/
def ElementsOf (d : Draft) (items : List ItemId) (ids : List ElementId) : Prop :=
  List.Forall₂ (fun item id => d.idOf? item = some id) items ids

/-- The places of the types of some items. -/
def PlacesOf (d : Draft) (items : List ItemId) (places : List TypeInfoId) : Prop :=
  List.Forall₂ (fun item place => d.places.find? item = some place) items places

/-- The fields for some items with names. -/
def FieldsOf (d : Draft) (named : List (ItemId × String)) (fields : List (String × TypeInfoId)) :
    Prop :=
  List.Forall₂ (fun n field => field.1 = n.2 ∧ d.places.find? n.1 = some field.2) named fields

/-- The place of the scalar that an item stands for. -/
def scalarPlace? (d : Draft) (item : ItemId) : Option TypeInfoId :=
  if (b.tree.item item).kind = some .simple then d.valuePlaces.find? item else d.places.find? item

/-- The fundamental that a reference narrows, if it does. -/
def narrowed? (item : ItemId) : Option Fundamental :=
  match b.tree.chainEnd item with
  | .ok (.item last) =>
    if (b.tree.item last).kind = some .fundamental ∧ (b.tree.item item).isAugmenting = true then
      namedFundamental (b.tree.item last)
    else none
  | _ => none

/-- The constraints that a simple object writes itself for the fundamental type it wraps. -/
def overlay (item : ItemId) : Constraints :=
  match b.tree.fundamentalOf item with
  | some type => explicitConstraintsOf (b.tree.item item).metadata type
  | none => ∅

/-- The type of a reference to what stands for its target. -/
def RefersTo (d : Draft) (item : ItemId) (shape : Shape) : Prop :=
  ∃ target place, (b.tree.item item).target? = some (.item target) ∧
    d.places.find? (b.standIn target) = some place ∧ shape = .ref place

/-- The type that an item has. -/
def Typed (d : Draft) (item : ItemId) (info : TypeInfo) : Prop :=
  match (b.tree.item item).kind with
  | some .fundamental => ∃ type, namedFundamental (b.tree.item item) = some type ∧
      info = ⟨b.arityOf item, .scalar ⟨type, constraintsOf (b.tree.item item).metadata type⟩⟩
  | some .compound => ∃ bases fields, PlacesOf d (b.tree.item item).itemReferences bases ∧
      FieldsOf d (b.named item (b.builtChildren item)) fields ∧
      info = ⟨b.arityOf item, .record ⟨bases, OrderedMap.ofList fields⟩⟩
  | some .simple => ∃ place fields, d.valuePlaces.find? item = some place ∧
      FieldsOf d (b.named item (b.builtChildren item)) fields ∧
      info = ⟨b.arityOf item, .record ⟨[], OrderedMap.ofList ((valuePlaceholder, place) :: fields)⟩⟩
  | some .variant => ∃ places,
      PlacesOf d ((b.tree.item item).alternatives.map b.standIn) places ∧
      info = ⟨b.arityOf item, .anyOf places⟩
  | some .reference => ∃ shape, info = ⟨b.arityOf item, shape⟩ ∧
      match b.narrowed? item with
      | some type => shape = .scalar ⟨type, constraintsOf (b.tree.item item).metadata type⟩
      | none => b.RefersTo d item shape
  | some .list => ∃ shape, info = ⟨b.arityOf item, shape⟩ ∧ b.RefersTo d item shape
  | some .any => info = ⟨b.arityOf item, .any⟩
  | some .custom => info = ⟨b.arityOf item, .custom⟩
  | some .extension => info = ⟨.one, .extension⟩
  | none => False

/-- The value of a simple object with a synthetic child. -/
def OwnValue (d : Draft) (child : ItemId) (place : TypeInfoId) : Prop :=
  ∃ type, namedFundamental (b.tree.item child) = some type ∧ d.typeInfos.get? place =
    some ⟨.one, .scalar ⟨type, constraintsOf (b.tree.item child).metadata type⟩⟩

/-- The value of a simple object without one: what is at its source, narrowed or not. -/
def TakenValue (due : List Task) (d : Draft) (item : ItemId) (place : TypeInfoId) : Prop :=
  ∃ source sourcePlace, (b.tree.simpleSources item).head? = some source ∧
    b.scalarPlace? d source = some sourcePlace ∧
    ((d.idOf? source).isSome ∨ .ensure source ∈ due ++ d.tasks) ∧
    if (b.overlay item).isEmpty then d.typeInfos.get? place = some ⟨.one, .ref sourcePlace⟩
    else d.narrowings.find? place = some ⟨sourcePlace, b.overlay item⟩

/-- The value that a simple object has at a place. -/
def Valued (due : List Task) (d : Draft) (item : ItemId) (place : TypeInfoId) : Prop :=
  match b.tree.syntheticChild item with
  | some child => b.OwnValue d child place
  | none => b.TakenValue due d item place

/-- An element of this type is that of its item, its links apart. -/
structure Shaped (due : List Task) (d : Draft) (item : ItemId) (e : Element (Option ElementId))
    (info : TypeInfo) : Prop where
  kind : (b.tree.item item).kind = some e.kind
  extensions : ElementsOf d (b.parts item .extension) e.extensions
  definitions : ElementsOf d (b.parts item .definition) e.data.definitions
  members : ElementsOf d (b.parts item .member) e.data.members
  names : e.attributeNames = b.listedNames item (b.builtChildren item)
  links : ∀ l, (e.data.linkAt l).isSome → (b.linked? item l).isSome
  owned : ∀ c ∈ b.owned item, ∃ id, d.idOf? c = some id ∧ (d.element id).parent.isSome
  typed : b.Typed d item info
  valued : (b.tree.item item).kind = some .simple →
    ∃ place, d.valuePlaces.find? item = some place ∧ b.Valued due d item place
  valueName : ∀ name, e.data.valueName? = some name → name = valuePlaceholder

/-- A link leads to the element that stands for an item, or a task will see to it. -/
def Linked (due : List Task) (d : Draft) (id : ElementId) (l : Link) (x : ItemId) : Prop :=
  match (d.element id).data.linkAt l with
  | some (some target) => d.idOf? (b.standIn x) = some target
  | some none => .wire id l (b.standIn x) ∈ due ++ d.tasks
  | none => False

/-- An element is that of its item. -/
structure Described (due : List Task) (d : Draft) (item : ItemId) (id : ElementId) : Prop where
  shaped : ∃ info, d.typeInfos.get? (d.element id).typeInfo = some info ∧
    b.Shaped due d item (d.element id) info
  linked : ∀ l x, b.linked? item l = some x → b.Linked due d id l x

/-! ### What holds at every step -/

/-- What holds at every step, as long as only items of `P` are asked for. The tasks in `due` have
been taken from the queue and are yet to be done. -/
structure Sound (P : ItemId → Prop) (due : List Task) (d : Draft) : Prop where
  indexed : d.Indexed
  head : ∀ id, id.index < d.elements.size →
    (d.element id).name = (b.tree.item (d.itemOf id)).effectiveName ∧
    (d.element id).isDefinition = ((b.tree.item (d.itemOf id)).role = .definition : Bool) ∧
    (d.element id).location = (b.tree.item (d.itemOf id)).location ∧
    (d.element id).metadata = ∅
  valuePlaces : ∀ item place, d.valuePlaces.find? item = some place →
    (b.tree.item item).kind = some .simple
  placed : ∀ item place, d.places.find? item = some place → P item
  asked : ∀ item id, d.idOf? item = some id → P item
  tasks : ∀ task ∈ due ++ d.tasks, P task.item
  wires : ∀ owner l item, .wire owner l item ∈ due ++ d.tasks → owner.index < d.elements.size ∧
    ∃ x, b.linked? (d.itemOf owner) l = some x ∧ b.standIn x = item
  parents : ∀ id p, (d.element id).parent = some p → d.itemOf id ∈ b.owned (d.itemOf p)
  described : ∀ item id, d.progress.find? item = some (.finished id) → b.Described due d item id

end Blueprint
end Schemata
