import Schemata.Proofs.Closure

/-! The types of the elements of a finished graph.

Every element has its type at the place of its item. What is there is what the item
was given when it was built, where the field of a simple object's value has got its
name and alternatives have been flattened. -/
namespace Schemata

open Draft

namespace Blueprint

variable {b : Blueprint} {d : Draft} {item : ItemId}

/-- Only objects have records for their types, and only variants alternatives. -/
theorem kind_of_typed {info : TypeInfo} (h : b.Typed d item info) :
    (∀ c, info.shape = .record c →
      (b.tree.item item).kind = some .compound ∨ (b.tree.item item).kind = some .simple) ∧
    ∀ alternatives, info.shape = .anyOf alternatives →
      (b.tree.item item).kind = some .variant := by
  have href : ∀ shape, b.RefersTo d item shape →
      (∀ c, shape ≠ .record c) ∧ ∀ alternatives, shape ≠ .anyOf alternatives := by
    rintro _ ⟨_, _, _, _, rfl⟩
    exact ⟨nofun, nofun⟩
  unfold Typed at h
  split at h
  · obtain ⟨_, _, rfl⟩ := h
    exact ⟨nofun, nofun⟩
  · next hk =>
    obtain ⟨_, _, _, _, rfl⟩ := h
    exact ⟨fun _ _ => .inl hk, nofun⟩
  · next hk =>
    obtain ⟨_, _, _, _, rfl⟩ := h
    exact ⟨fun _ _ => .inr hk, nofun⟩
  · next hk =>
    obtain ⟨_, _, rfl⟩ := h
    exact ⟨nofun, fun _ _ => hk⟩
  · obtain ⟨shape, rfl, hshape⟩ := h
    split at hshape
    · cases hshape
      exact ⟨nofun, nofun⟩
    · exact ⟨fun c he => absurd he ((href shape hshape).1 c),
        fun as he => absurd he ((href shape hshape).2 as)⟩
  · obtain ⟨shape, rfl, hshape⟩ := h
    exact ⟨fun c he => absurd he ((href shape hshape).1 c),
      fun as he => absurd he ((href shape hshape).2 as)⟩
  · cases h
    exact ⟨nofun, nofun⟩
  · cases h
    exact ⟨nofun, nofun⟩
  · cases h
    exact ⟨nofun, nofun⟩
  · cases h

end Blueprint

namespace ItemTree.BuiltBy

variable {t : ItemTree} {plugin : Plugin} {P : ItemId → Prop} {d d' : Draft} {c : Compiled}
  {id : ElementId}

/-- The type that an element was built with, and what has become of it. -/
theorem drafted (h : t.BuiltBy plugin P d d' c) (hid : id ∈ c.graph.ids) :
    ∃ info info', (t.blueprint plugin).Typed d (d.itemOf id) info ∧
      d.typeInfos.get? (c.graph.element id).typeInfo = some info ∧
      c.graph.typeInfos.get? (c.graph.element id).typeInfo = some info' ∧
      (if id ∈ d.walk c.root ∧ (c.graph.element id).kind = .simple then
        info.withValueName (valueNameOf (t.item (d.itemOf id)))
      else info).SameButAlternatives info' := by
  have hlt := h.mem_ids.1 hid
  obtain ⟨info, hget, hs⟩ := (h.assembled.described hlt).shaped
  obtain ⟨info', hget', hsame⟩ := h.settles.types id info hlt hget
  rw [h.typeInfo hid, h.kind hid, h.closes.types]
  exact ⟨info, info', hs.typed, hget, hget', hsame⟩

theorem typed (h : t.BuiltBy plugin P d d' c) (hid : id ∈ c.graph.ids) :
    ∃ info info', (t.blueprint plugin).Typed d (d.itemOf id) info ∧
      c.graph.typeInfos.get? (c.graph.element id).typeInfo = some info' ∧
      (if id ∈ d.walk c.root ∧ (c.graph.element id).kind = .simple then
        info.withValueName (valueNameOf (t.item (d.itemOf id)))
      else info).SameButAlternatives info' := by
  obtain ⟨info, info', htyped, _, hget, hsame⟩ := h.drafted hid
  exact ⟨info, info', htyped, hget, hsame⟩

/-- A record stays as it was built, but for the name of the field of a value. -/
theorem record_of_draft (h : t.BuiltBy plugin P d d' c) (hid : id ∈ c.graph.ids) {arity : Arity}
    {record : ClassShape} (hget : d.typeInfos.get? (c.graph.element id).typeInfo =
      some ⟨arity, .record record⟩) :
    c.graph.typeInfos.get? (c.graph.element id).typeInfo = some ⟨arity, .record
      (if id ∈ d.walk c.root ∧ (c.graph.element id).kind = .simple then
        { record with fields := renameValue (valueNameOf (t.item (d.itemOf id))) record.fields }
      else record)⟩ := by
  obtain ⟨info, info', _, hget₁, hget₂, hsame⟩ := h.drafted hid
  rw [hget] at hget₁
  cases hget₁
  rw [hget₂]
  split
  · next hc =>
    rw [if_pos hc] at hsame
    rcases hsame with rfl | ⟨_, _, _, he, _⟩
    · rfl
    · cases he
  · next hc =>
    rw [if_neg hc] at hsame
    rcases hsame with rfl | ⟨_, _, _, he, _⟩
    · rfl
    · cases he

theorem kind_item (h : t.BuiltBy plugin P d d' c) (hid : id ∈ c.graph.ids) :
    (t.item (d.itemOf id)).kind = some (c.graph.element id).kind := by
  rw [h.kind hid]
  exact h.assembled.kind (h.mem_ids.1 hid)

theorem kind_eq (h : t.BuiltBy plugin P d d' c) (hid : id ∈ c.graph.ids) {k : Kind}
    (hk : (t.item (d.itemOf id)).kind = some k) : (c.graph.element id).kind = k :=
  Option.some.inj ((h.kind_item hid).symm.trans hk)

/-- The element of an item has its name. -/
theorem element_of_idOf? (h : t.BuiltBy plugin P d d' c) {item : ItemId}
    (hid : d.idOf? item = some id) : id ∈ c.graph.ids ∧ d.itemOf id = item ∧
      (c.graph.element id).name = (t.item item).effectiveName := by
  have hi := h.assembled.sound.indexed
  have hlt := hi.lt_of_idOf? hid
  have hmem := h.mem_ids.2 hlt
  have hitem := hi.itemOf_of_idOf? hid
  refine ⟨hmem, hitem, ?_⟩
  rw [(h.element hmem).name, h.completed.kept.element id, (h.assembled.sound.head id hlt).1, hitem]
  rfl

/-- The members and the definitions of an element are the elements of those of its item. -/
theorem elementsOf_parts (h : t.BuiltBy plugin P d d' c) (hid : id ∈ c.graph.ids) :
    Blueprint.ElementsOf d ((t.blueprint plugin).parts (d.itemOf id) .member)
        (c.graph.element id).data.members ∧
      Blueprint.ElementsOf d ((t.blueprint plugin).parts (d.itemOf id) .definition)
        (c.graph.element id).data.definitions := by
  obtain ⟨info, _, hs⟩ := (h.assembled.described (h.mem_ids.1 hid)).shaped
  have hdata := (h.element hid).data
  have hkept := h.completed.kept.data id
  rw [hdata.members, hkept.members, hdata.definitions, hkept.definitions]
  exact ⟨hs.members, hs.definitions⟩

/-- All types but those of simple objects and of variants are as they were built. -/
theorem typed_of_kind (h : t.BuiltBy plugin P d d' c) (hid : id ∈ c.graph.ids)
    (hs : (c.graph.element id).kind ≠ .simple) (hv : (c.graph.element id).kind ≠ .variant) :
    ∃ info, (t.blueprint plugin).Typed d (d.itemOf id) info ∧
      c.graph.typeInfos.get? (c.graph.element id).typeInfo = some info := by
  obtain ⟨info, info', htyped, hget, hsame⟩ := h.typed hid
  rw [if_neg fun hc => hs hc.2] at hsame
  rcases hsame with rfl | ⟨arity, alternatives, _, rfl, _⟩
  · exact ⟨info', htyped, hget⟩
  · have hk := (Blueprint.kind_of_typed htyped).2 alternatives rfl
    exact absurd (h.kind_eq hid hk) hv

/-- The type of a compound object has the fields of its named members, and its bases. -/
theorem type_of_compound (h : t.BuiltBy plugin P d d' c) (hid : id ∈ c.graph.ids)
    (hk : (c.graph.element id).kind = .compound) :
    ∃ bases fields, Blueprint.PlacesOf d (t.item (d.itemOf id)).itemReferences bases ∧
      Blueprint.FieldsOf d ((t.blueprint plugin).named (d.itemOf id)
        ((t.blueprint plugin).builtChildren (d.itemOf id))) fields ∧
      c.graph.typeInfos.get? (c.graph.element id).typeInfo =
        some ⟨(t.blueprint plugin).arityOf (d.itemOf id), .record ⟨bases, .ofList fields⟩⟩ := by
  obtain ⟨info, htyped, hget⟩ := h.typed_of_kind hid (by simp [hk]) (by simp [hk])
  have hkind := h.kind_item hid
  rw [hk] at hkind
  unfold Blueprint.Typed at htyped
  rw [show ((t.blueprint plugin).tree.item (d.itemOf id)).kind = _ from hkind] at htyped
  obtain ⟨bases, fields, hbases, hfields, rfl⟩ := htyped
  exact ⟨bases, fields, hbases, hfields, hget⟩

/-- The type of a simple object has a field for its value and those of its attributes. On the walk
from the root the value's field has got its name. -/
theorem type_of_simple (h : t.BuiltBy plugin P d d' c) (hid : id ∈ c.graph.ids)
    (hk : (c.graph.element id).kind = .simple) :
    ∃ place fields shape, Blueprint.FieldsOf d ((t.blueprint plugin).named (d.itemOf id)
        ((t.blueprint plugin).builtChildren (d.itemOf id))) fields ∧
      c.graph.typeInfos.get? (c.graph.element id).typeInfo =
        some ⟨(t.blueprint plugin).arityOf (d.itemOf id), .record ⟨[], shape⟩⟩ ∧
      (id ∈ d.walk c.root → shape = renameValue (valueNameOf (t.item (d.itemOf id)))
        (.ofList ((Blueprint.valuePlaceholder, place) :: fields))) := by
  obtain ⟨info, info', htyped, hget, hsame⟩ := h.typed hid
  have hkind := h.kind_item hid
  rw [hk] at hkind
  unfold Blueprint.Typed at htyped
  rw [show ((t.blueprint plugin).tree.item (d.itemOf id)).kind = _ from hkind] at htyped
  obtain ⟨place, fields, _, hfields, rfl⟩ := htyped
  by_cases hw : id ∈ d.walk c.root
  · rw [if_pos ⟨hw, hk⟩] at hsame
    rcases hsame with rfl | ⟨_, _, _, he, _⟩
    · exact ⟨place, fields, _, hfields, hget, fun _ => rfl⟩
    · cases he
  · rw [if_neg fun hc => hw hc.1] at hsame
    rcases hsame with rfl | ⟨_, _, _, he, _⟩
    · exact ⟨place, fields, _, hfields, hget, fun hw' => absurd hw' hw⟩
    · cases he

/-- The type of a variant is one of some alternatives. -/
theorem type_of_variant (h : t.BuiltBy plugin P d d' c) (hid : id ∈ c.graph.ids)
    (hk : (c.graph.element id).kind = .variant) :
    ∃ alternatives, c.graph.typeInfos.get? (c.graph.element id).typeInfo =
      some ⟨(t.blueprint plugin).arityOf (d.itemOf id), .anyOf alternatives⟩ := by
  obtain ⟨info, info', htyped, hget, hsame⟩ := h.typed hid
  have hkind := h.kind_item hid
  rw [hk] at hkind
  unfold Blueprint.Typed at htyped
  rw [show ((t.blueprint plugin).tree.item (d.itemOf id)).kind = _ from hkind] at htyped
  obtain ⟨places, _, rfl⟩ := htyped
  rw [if_neg (by simp [hk])] at hsame
  rcases hsame with rfl | ⟨_, _, alternatives, he, rfl⟩
  · exact ⟨places, hget⟩
  · cases he
    exact ⟨alternatives, hget⟩

/-- Only objects have records for their types. -/
theorem kind_of_record (h : t.BuiltBy plugin P d d' c) (hid : id ∈ c.graph.ids) {arity : Arity}
    {record : ClassShape} (hget : c.graph.typeInfos.get? (c.graph.element id).typeInfo =
      some ⟨arity, .record record⟩) (hs : (c.graph.element id).kind ≠ .simple) :
    (c.graph.element id).kind = .compound := by
  by_cases hv : (c.graph.element id).kind = .variant
  · obtain ⟨alternatives, hget'⟩ := h.type_of_variant hid hv
    rw [hget] at hget'
    cases hget'
  obtain ⟨info, htyped, hget'⟩ := h.typed_of_kind hid hs hv
  rw [hget] at hget'
  cases hget'
  have hk := (Blueprint.kind_of_typed htyped).1 record rfl
  rw [show ((t.blueprint plugin).tree.item (d.itemOf id)).kind = _ from h.kind_item hid] at hk
  exact (hk.imp Option.some.inj Option.some.inj).resolve_right hs

/-- But for extensions, the arity of an item is that of the type of its element. -/
theorem arity_eq (h : t.BuiltBy plugin P d d' c) (hid : id ∈ c.graph.ids)
    (hk : (c.graph.element id).kind ≠ .extension) :
    ∃ shape, c.graph.typeInfos.get? (c.graph.element id).typeInfo =
      some ⟨(t.blueprint plugin).arityOf (d.itemOf id), shape⟩ := by
  by_cases hs : (c.graph.element id).kind = .simple
  · obtain ⟨_, _, shape, _, hget, _⟩ := h.type_of_simple hid hs
    exact ⟨_, hget⟩
  by_cases hv : (c.graph.element id).kind = .variant
  · obtain ⟨alternatives, hget⟩ := h.type_of_variant hid hv
    exact ⟨_, hget⟩
  obtain ⟨info, htyped, hget⟩ := h.typed_of_kind hid hs hv
  unfold Blueprint.Typed at htyped
  split at htyped
  · obtain ⟨_, _, rfl⟩ := htyped
    exact ⟨_, hget⟩
  · obtain ⟨_, _, _, _, rfl⟩ := htyped
    exact ⟨_, hget⟩
  · next he => exact absurd (h.kind_eq hid he) hs
  · next he => exact absurd (h.kind_eq hid he) hv
  · obtain ⟨_, rfl, _⟩ := htyped
    exact ⟨_, hget⟩
  · obtain ⟨_, rfl, _⟩ := htyped
    exact ⟨_, hget⟩
  · rw [htyped] at hget
    exact ⟨_, hget⟩
  · rw [htyped] at hget
    exact ⟨_, hget⟩
  · next he => exact absurd (h.kind_eq hid he) hk
  · cases htyped

/-- An element on the walk from the root has the values of its item's entries. -/
theorem metadata_eq (h : t.BuiltBy plugin P d d' c) (hid : id ∈ c.graph.ids)
    (hw : id ∈ d.walk c.root) :
    (c.graph.element id).metadata = keptValues (t.item (d.itemOf id)) := by
  rw [(h.element hid).metadata, h.settles.metadata id (h.mem_ids.1 hid), if_pos hw]

/-- An element off the walk has no metadata. -/
theorem metadata_eq_empty (h : t.BuiltBy plugin P d d' c) (hid : id ∈ c.graph.ids)
    (hw : id ∉ d.walk c.root) : (c.graph.element id).metadata = ∅ := by
  have hlt := h.mem_ids.1 hid
  rw [(h.element hid).metadata, h.settles.metadata id hlt, if_neg hw]
  exact (h.assembled.sound.head id hlt).2.2.2

end ItemTree.BuiltBy
end Schemata
