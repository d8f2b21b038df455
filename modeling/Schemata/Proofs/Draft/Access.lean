import Mathlib.Data.List.Nodup
import Schemata.Draft

/-! What is found in a draft and in an arena of types after a change. -/
namespace Schemata

/-! ### Arenas of types -/

/-- The places that a shape names. -/
def Shape.mentioned : Shape → List TypeInfoId
  | record c => c.bases ++ c.fields.values
  | anyOf alternatives => alternatives
  | ref target => [target]
  | _ => []

namespace TypeInfoArena

variable (arena : TypeInfoArena)

/-- The places of an arena. -/
def ids : List TypeInfoId := (List.range arena.size).map TypeInfoId.mk

@[simp] theorem mem_ids (place : TypeInfoId) : place ∈ arena.ids ↔ place.index < arena.size := by
  obtain ⟨i⟩ := place
  simp [ids]

theorem nodup_ids : arena.ids.Nodup :=
  List.nodup_range.map fun _ _ h => TypeInfoId.mk.inj h

@[simp] theorem size_reserve : arena.reserve.size = arena.size + 1 := by simp [reserve, size]

@[simp] theorem size_fill (place : TypeInfoId) (info : TypeInfo) :
    (arena.fill place info).size = arena.size := by simp [fill, size]

theorem ids_reserve : arena.reserve.ids = arena.ids ++ [arena.nextId] := by
  simp [ids, nextId, List.range_succ]

@[simp] theorem get?_reserve (place : TypeInfoId) :
    arena.reserve.get? place = arena.get? place := by
  obtain ⟨i⟩ := place
  simp only [get?, reserve, Array.getElem?_push]
  split
  · next h => simp [h]
  · rfl

theorem get?_fill (place p : TypeInfoId) (info : TypeInfo) :
    (arena.fill place info).get? p =
      if p = place ∧ place.index < arena.size then some info else arena.get? p := by
  obtain ⟨i⟩ := place
  obtain ⟨j⟩ := p
  simp only [get?, fill, size, Array.getElem?_setIfInBounds, TypeInfoId.mk.injEq]
  by_cases h : i = j
  · subst h
    by_cases hi : i < arena.slots.size <;> simp [hi]
  · have h' : ¬j = i := fun e => h e.symm
    simp [h, h']

theorem index_lt_of_get? {arena : TypeInfoArena} {place : TypeInfoId} {info : TypeInfo}
    (h : arena.get? place = some info) : place.index < arena.size := by
  unfold get? at h
  by_contra hn
  rw [Array.getElem?_eq_none (Nat.le_of_not_lt hn)] at h
  cases h

end TypeInfoArena

/-! ### Elements -/

/-- Everything that an element names, its parent included. -/
def Element.mentioned (e : Element (Option ElementId)) : List ElementId :=
  e.parent.toList ++ e.edgesBy fun link => link

namespace Draft

variable (d : Draft)

/-- The item that an element is built from. -/
def itemOf (id : ElementId) : ItemId := (d.draftElement id).item

/-- The element of an item. -/
def idOf? (item : ItemId) : Option ElementId := (d.progress.find? item).map Progress.id

theorem draftElement_modifyElement (id j : ElementId)
    (f : Element (Option ElementId) → Element (Option ElementId)) :
    (d.modifyElement id f).draftElement j =
      if j = id ∧ j.index < d.elements.size then
        { d.draftElement j with element := f (d.element j) }
      else d.draftElement j := by
  obtain ⟨i⟩ := id
  obtain ⟨j⟩ := j
  simp only [draftElement, element, modifyElement, Array.getD_eq_getD_getElem?,
    Array.getElem?_modify, ElementId.mk.injEq]
  by_cases h : i = j
  · subst h
    by_cases hi : i < d.elements.size <;> simp [hi]
  · have h' : ¬j = i := fun e => h e.symm
    simp [h, h']

theorem element_modifyElement (id j : ElementId)
    (f : Element (Option ElementId) → Element (Option ElementId)) :
    (d.modifyElement id f).element j =
      if j = id ∧ j.index < d.elements.size then f (d.element j) else d.element j := by
  unfold element
  rw [draftElement_modifyElement]
  split <;> rfl

@[simp] theorem itemOf_modifyElement (id j : ElementId)
    (f : Element (Option ElementId) → Element (Option ElementId)) :
    (d.modifyElement id f).itemOf j = d.itemOf j := by
  unfold itemOf
  rw [draftElement_modifyElement]
  split <;> rfl

@[simp] theorem size_modifyElement (id : ElementId)
    (f : Element (Option ElementId) → Element (Option ElementId)) :
    (d.modifyElement id f).elements.size = d.elements.size := by
  simp [modifyElement]

/-- Past the end there is nothing that names anything. -/
theorem element_of_size_le {d : Draft} {id : ElementId} (h : d.elements.size ≤ id.index) :
    d.element id = default := by
  unfold element draftElement
  rw [Array.getD_eq_getD_getElem?, Array.getElem?_eq_none h]
  rfl

end Draft
end Schemata
