import Schemata.Proofs.Draft.Invariant

/-! What is said of an element stays true while the draft grows.

All of it is about what has been found already: elements and places of items,
filled places, waiting tasks. Only links may change later, so they are kept
apart. -/
namespace Schemata.Blueprint

variable {b : Blueprint} {mine : Option ElementId} {due : List Task} {d d' : Draft}

theorem ElementsOf.mono {items : List ItemId} {ids : List ElementId} (h : ElementsOf d items ids)
    (g : d.Grows mine d') : ElementsOf d' items ids := h.imp fun _ _ => g.idOf?

theorem PlacesOf.mono {items : List ItemId} {places : List TypeInfoId}
    (h : PlacesOf d items places) (g : d.Grows mine d') : PlacesOf d' items places :=
  h.imp fun _ _ => g.places _ _

theorem FieldsOf.mono {named : List (ItemId × String)} {fields : List (String × TypeInfoId)}
    (h : FieldsOf d named fields) (g : d.Grows mine d') : FieldsOf d' named fields :=
  h.imp fun _ _ hf => ⟨hf.1, g.places _ _ hf.2⟩

theorem scalarPlace?_mono {item : ItemId} {place : TypeInfoId}
    (h : b.scalarPlace? d item = some place) (g : d.Grows mine d') :
    b.scalarPlace? d' item = some place := by
  unfold scalarPlace? at h ⊢
  split at h
  · next hk =>
    rw [if_pos hk]
    exact g.valuePlaces item place h
  · next hk =>
    rw [if_neg hk]
    exact g.places item place h

theorem RefersTo.mono {item : ItemId} {shape : Shape} (h : b.RefersTo d item shape)
    (g : d.Grows mine d') : b.RefersTo d' item shape := by
  obtain ⟨target, place, ht, hp, hs⟩ := h
  exact ⟨target, place, ht, g.places _ _ hp, hs⟩

theorem Typed.mono {item : ItemId} {info : TypeInfo} (h : b.Typed d item info)
    (g : d.Grows mine d') : b.Typed d' item info := by
  unfold Typed at h ⊢
  split at h
  · exact h
  · obtain ⟨bases, fields, hb, hf, hi⟩ := h
    exact ⟨bases, fields, hb.mono g, hf.mono g, hi⟩
  · obtain ⟨place, fields, hp, hf, hi⟩ := h
    exact ⟨place, fields, g.valuePlaces _ _ hp, hf.mono g, hi⟩
  · obtain ⟨places, hp, hi⟩ := h
    exact ⟨places, hp.mono g, hi⟩
  · obtain ⟨shape, hi, hs⟩ := h
    refine ⟨shape, hi, ?_⟩
    split at hs
    · exact hs
    · exact hs.mono g
  · obtain ⟨shape, hi, hs⟩ := h
    exact ⟨shape, hi, hs.mono g⟩
  all_goals exact h

theorem TakenValue.mono {item : ItemId} {place : TypeInfoId} (h : b.TakenValue due d item place)
    (g : d.Grows mine d') : b.TakenValue due d' item place := by
  obtain ⟨source, sourcePlace, hs, hp, he, hv⟩ := h
  refine ⟨source, sourcePlace, hs, scalarPlace?_mono hp g, ?_, ?_⟩
  · rcases he with he | he
    · obtain ⟨id, hid⟩ := Option.isSome_iff_exists.1 he
      exact .inl (by rw [g.idOf? hid]; rfl)
    · rcases List.mem_append.1 he with he | he
      · exact .inr (List.mem_append_left _ he)
      · exact .inr (List.mem_append_right _ (g.tasks _ he))
  · split at hv
    · next ho =>
      rw [if_pos ho]
      exact g.filled _ _ hv
    · next ho =>
      rw [if_neg ho]
      exact g.narrowings _ _ hv

theorem Valued.mono {item : ItemId} {place : TypeInfoId} (h : b.Valued due d item place)
    (g : d.Grows mine d') : b.Valued due d' item place := by
  unfold Valued at h ⊢
  split at h
  · obtain ⟨type, ht, hp⟩ := h
    exact ⟨type, ht, g.filled _ _ hp⟩
  · exact TakenValue.mono h g

/-- Alike in all that does not change once it is settled. -/
structure Alike (e e' : Element (Option ElementId)) : Prop where
  kind : e'.kind = e.kind
  typeInfo : e'.typeInfo = e.typeInfo
  extensions : e'.extensions = e.extensions
  names : e'.attributeNames = e.attributeNames
  members : e'.data.members = e.data.members
  definitions : e'.data.definitions = e.data.definitions
  valueName : e'.data.valueName? = e.data.valueName?
  links : ∀ l, (e'.data.linkAt l).isSome = (e.data.linkAt l).isSome

theorem Alike.of_untouched {id : ElementId} (h : d.Untouched d' id) :
    Alike (d.element id) (d'.element id) := by
  unfold Draft.Untouched at h
  rw [h]
  exact ⟨rfl, rfl, rfl, rfl, rfl, rfl, rfl, fun _ => rfl⟩

theorem Alike.trans {e e' e'' : Element (Option ElementId)} (h : Alike e e') (h' : Alike e' e'') :
    Alike e e'' :=
  ⟨h'.kind.trans h.kind, h'.typeInfo.trans h.typeInfo, h'.extensions.trans h.extensions,
    h'.names.trans h.names, h'.members.trans h.members, h'.definitions.trans h.definitions,
    h'.valueName.trans h.valueName, fun l => (h'.links l).trans (h.links l)⟩

theorem Shaped.mono {item : ItemId} {e e' : Element (Option ElementId)} {info : TypeInfo}
    (h : b.Shaped due d item e info) (g : d.Grows mine d') (ha : Alike e e') :
    b.Shaped due d' item e' info where
  kind := by rw [ha.kind]; exact h.kind
  extensions := by rw [ha.extensions]; exact h.extensions.mono g
  definitions := by rw [ha.definitions]; exact h.definitions.mono g
  members := by rw [ha.members]; exact h.members.mono g
  names := by rw [ha.names]; exact h.names
  links l hl := h.links l (ha.links l ▸ hl)
  owned c hc := by
    obtain ⟨id, hid, hp⟩ := h.owned c hc
    exact ⟨id, g.idOf? hid, g.parent id hp⟩
  typed := h.typed.mono g
  valued hk := by
    obtain ⟨place, hp, hv⟩ := h.valued hk
    exact ⟨place, g.valuePlaces _ _ hp, hv.mono g⟩
  valueName name hn := h.valueName name (ha.valueName ▸ hn)

theorem Linked.mono {id : ElementId} {l : Link} {x : ItemId} (h : b.Linked due d id l x)
    (g : d.Grows mine d') (hl : (d'.element id).data.linkAt l = (d.element id).data.linkAt l) :
    b.Linked due d' id l x := by
  unfold Linked at h ⊢
  rw [hl]
  split at h
  · exact g.idOf? h
  · rcases List.mem_append.1 h with h | h
    · exact List.mem_append_left _ h
    · exact List.mem_append_right _ (g.tasks _ h)
  · exact h

/-- An element that stays alike is described again once its links are. -/
theorem Described.of_alike {item : ItemId} {id : ElementId} (h : b.Described due d item id)
    (g : d.Grows mine d') (ha : Alike (d.element id) (d'.element id))
    (hl : ∀ l x, b.linked? item l = some x → b.Linked due d' id l x) :
    b.Described due d' item id where
  shaped := by
    obtain ⟨info, hi, hs⟩ := h.shaped
    exact ⟨info, by rw [ha.typeInfo]; exact g.filled _ _ hi, hs.mono g ha⟩
  linked := hl

theorem Described.mono {item : ItemId} {id : ElementId} (h : b.Described due d item id)
    (g : d.Grows mine d') (hu : d.Untouched d' id) : b.Described due d' item id :=
  h.of_alike g (.of_untouched hu) fun l x hx =>
    (h.linked l x hx).mono g (by unfold Draft.Untouched at hu; rw [hu])

end Schemata.Blueprint
