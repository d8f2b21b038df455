import Schemata.Proofs.Draft.Invariant

/-! The changes that building makes to a draft.

A place is reserved or filled, an element gets a part, its data, a parent or a
link, a task is put in the queue, an element is begun or finished. Each change
keeps the bookkeeping in order, and all that it may change is the element that is
being built. -/
namespace Schemata.Draft

variable {d : Draft} {mine : Option ElementId}

/-! ### What the bookkeeping says at once -/

theorem Indexed.nodup_places (h : d.Indexed) :
    (d.places.values ++ d.valuePlaces.values).Nodup :=
  h.places.nodup_iff.2 d.typeInfos.nodup_ids

theorem Indexed.place_lt (h : d.Indexed) {item : ItemId} {place : TypeInfoId}
    (hp : d.places.find? item = some place) : place.index < d.typeInfos.size :=
  (TypeInfoArena.mem_ids _ _).1
    (h.places.subset (List.mem_append_left _ (OrderedMap.mem_values_of_find? hp)))

theorem Indexed.valuePlace_lt (h : d.Indexed) {item : ItemId} {place : TypeInfoId}
    (hp : d.valuePlaces.find? item = some place) : place.index < d.typeInfos.size :=
  (TypeInfoArena.mem_ids _ _).1
    (h.places.subset (List.mem_append_right _ (OrderedMap.mem_values_of_find? hp)))

theorem Indexed.place_inj (h : d.Indexed) {i j : ItemId} {place : TypeInfoId}
    (hi : d.places.find? i = some place) (hj : d.places.find? j = some place) : i = j :=
  OrderedMap.key_eq_of_nodup_values (List.nodup_append.1 h.nodup_places).1 hi hj

theorem Indexed.valuePlace_inj (h : d.Indexed) {i j : ItemId} {place : TypeInfoId}
    (hi : d.valuePlaces.find? i = some place) (hj : d.valuePlaces.find? j = some place) : i = j :=
  OrderedMap.key_eq_of_nodup_values (List.nodup_append.1 h.nodup_places).2.1 hi hj

theorem Indexed.place_ne_valuePlace (h : d.Indexed) {i j : ItemId} {p q : TypeInfoId}
    (hi : d.places.find? i = some p) (hj : d.valuePlaces.find? j = some q) : p ≠ q :=
  (List.nodup_append.1 h.nodup_places).2.2 p (OrderedMap.mem_values_of_find? hi) q
    (OrderedMap.mem_values_of_find? hj)

theorem Indexed.lt_of_idOf? (h : d.Indexed) {item : ItemId} {id : ElementId}
    (hi : d.idOf? item = some id) : id.index < d.elements.size := by
  obtain ⟨p, hp, rfl⟩ := Option.map_eq_some_iff.1 hi
  exact (h.progress item p hp).1

theorem Indexed.itemOf_of_idOf? (h : d.Indexed) {item : ItemId} {id : ElementId}
    (hi : d.idOf? item = some id) : d.itemOf id = item := by
  obtain ⟨p, hp, rfl⟩ := Option.map_eq_some_iff.1 hi
  exact (h.progress item p hp).2

theorem idOf?_of_progress {item : ItemId} {p : Progress} (h : d.progress.find? item = some p) :
    d.idOf? item = some p.id := by
  unfold idOf?
  rw [h]
  rfl

/-- Elements and their progress determine each other. -/
theorem Indexed.progress_unique (h : d.Indexed) {i j : ItemId} {p q : Progress}
    (hp : d.progress.find? i = some p) (hq : d.progress.find? j = some q) (he : p.id = q.id) :
    p = q := by
  have hij : i = j := by rw [← (h.progress i p hp).2, ← (h.progress j q hq).2, he]
  subst hij
  rw [hp] at hq
  exact Option.some.inj hq

/-! ### Reserving a place -/

theorem get?_nextId (arena : TypeInfoArena) : arena.get? arena.nextId = none := by
  cases h : arena.get? arena.nextId with
  | none => rfl
  | some info => exact absurd (TypeInfoArena.index_lt_of_get? h) (Nat.lt_irrefl _)

/-- With a place reserved for the type of an item. -/
def reserved (d : Draft) (item : ItemId) : Draft :=
  { d with typeInfos := d.typeInfos.reserve, places := d.places.insert item d.typeInfos.nextId }

/-- With a place reserved for the value of a simple object. -/
def valueReserved (d : Draft) (item : ItemId) : Draft :=
  { d with
    typeInfos := d.typeInfos.reserve, valuePlaces := d.valuePlaces.insert item d.typeInfos.nextId }

theorem grows_reserved (mine : Option ElementId) {item : ItemId} (hn : d.places.find? item = none) :
    d.Grows mine (d.reserved item) :=
  { Grows.refl mine d with
    spared := fun _ id _ _ => ⟨.refl d id, fun p _ => TypeInfoArena.get?_reserve _ p,
      fun p _ => ⟨TypeInfoArena.get?_reserve _ p, rfl⟩⟩
    places := fun i p h => by
      have hne : i ≠ item := by rintro rfl; rw [hn] at h; cases h
      show (d.places.insert item d.typeInfos.nextId).find? i = some p
      rw [OrderedMap.find?_insert, if_neg hne]
      exact h
    filled := fun place info h => (TypeInfoArena.get?_reserve _ place).trans h }

theorem grows_valueReserved (mine : Option ElementId) {item : ItemId}
    (hn : d.valuePlaces.find? item = none) : d.Grows mine (d.valueReserved item) :=
  { Grows.refl mine d with
    spared := fun _ id _ _ => ⟨.refl d id, fun p _ => TypeInfoArena.get?_reserve _ p,
      fun p _ => ⟨TypeInfoArena.get?_reserve _ p, rfl⟩⟩
    valuePlaces := fun i p h => by
      have hne : i ≠ item := by rintro rfl; rw [hn] at h; cases h
      show (d.valuePlaces.insert item d.typeInfos.nextId).find? i = some p
      rw [OrderedMap.find?_insert, if_neg hne]
      exact h
    filled := fun place info h => (TypeInfoArena.get?_reserve _ place).trans h }

theorem Indexed.reserved (h : d.Indexed) {item : ItemId} (hn : d.places.find? item = none) :
    (d.reserved item).Indexed where
  progress := h.progress
  element := h.element
  place id hid := (grows_reserved none hn).places _ _ (h.place id hid)
  places := by
    show ((d.places.insert item d.typeInfos.nextId).values ++ d.valuePlaces.values).Perm
      d.typeInfos.reserve.ids
    rw [OrderedMap.values_insert_of_find?_none _ hn, TypeInfoArena.ids_reserve, List.append_assoc]
    refine (List.perm_append_comm_assoc _ _ _).trans ?_
    have hlast : ([d.typeInfos.nextId] ++ (d.places.values ++ d.valuePlaces.values)).Perm
        ((d.places.values ++ d.valuePlaces.values) ++ [d.typeInfos.nextId]) := List.perm_append_comm
    exact hlast.trans (h.places.append_right _)
  filled i place hp hf := by
    replace hp : (d.places.insert item d.typeInfos.nextId).find? i = some place := hp
    replace hf : (d.typeInfos.reserve.get? place).isSome := hf
    rw [TypeInfoArena.get?_reserve] at hf
    rw [OrderedMap.find?_insert] at hp
    split at hp
    · cases hp
      rw [get?_nextId] at hf
      cases hf
    · exact h.filled i place hp hf
  valueFilled i place hp hf := by
    refine h.valueFilled i place hp (hf.imp_left fun hf => ?_)
    rw [← TypeInfoArena.get?_reserve]
    exact hf
  narrowed place n hp := by
    obtain ⟨hg, hsource, i, hi⟩ := h.narrowed place n hp
    refine ⟨(TypeInfoArena.get?_reserve _ _).trans hg, ?_, i, hi⟩
    show n.source.index < d.typeInfos.reserve.size
    rw [TypeInfoArena.size_reserve]
    omega
  types place info hp q hq := by
    have := h.types place info ((TypeInfoArena.get?_reserve _ _).symm.trans hp) q hq
    show q.index < d.typeInfos.reserve.size
    rw [TypeInfoArena.size_reserve]
    omega
  mentioned := h.mentioned

theorem Indexed.valueReserved (h : d.Indexed) {item : ItemId}
    (hn : d.valuePlaces.find? item = none) : (d.valueReserved item).Indexed where
  progress := h.progress
  element := h.element
  place := h.place
  places := by
    show (d.places.values ++ (d.valuePlaces.insert item d.typeInfos.nextId).values).Perm
      d.typeInfos.reserve.ids
    rw [OrderedMap.values_insert_of_find?_none _ hn, TypeInfoArena.ids_reserve, ← List.append_assoc]
    exact h.places.append_right _
  filled i place hp hf := by
    refine h.filled i place hp ?_
    rw [← TypeInfoArena.get?_reserve]
    exact hf
  valueFilled i place hp hf := by
    replace hp : (d.valuePlaces.insert item d.typeInfos.nextId).find? i = some place := hp
    replace hf : (d.typeInfos.reserve.get? place).isSome ∨ (d.narrowings.find? place).isSome := hf
    rw [TypeInfoArena.get?_reserve] at hf
    rw [OrderedMap.find?_insert] at hp
    split at hp
    · -- a narrowing at the new place would be that of an item that has the place already
      cases hp
      rcases hf with hf | hf
      · rw [get?_nextId] at hf
        cases hf
      · obtain ⟨n, hnar⟩ := Option.isSome_iff_exists.1 hf
        obtain ⟨_, _, j, hj⟩ := h.narrowed _ n hnar
        exact absurd (h.valuePlace_lt hj) (Nat.lt_irrefl _)
    · exact h.valueFilled i place hp hf
  narrowed place n hp := by
    obtain ⟨hg, hsource, i, hi⟩ := h.narrowed place n hp
    refine ⟨(TypeInfoArena.get?_reserve _ _).trans hg, ?_, i,
      (grows_valueReserved none hn).valuePlaces _ _ hi⟩
    show n.source.index < d.typeInfos.reserve.size
    rw [TypeInfoArena.size_reserve]
    omega
  types place info hp q hq := by
    have := h.types place info ((TypeInfoArena.get?_reserve _ _).symm.trans hp) q hq
    show q.index < d.typeInfos.reserve.size
    rw [TypeInfoArena.size_reserve]
    omega
  mentioned := h.mentioned

/-! ### Changing an element -/

/-- A change that leaves what an element is given when it is begun. -/
structure KeepsHead (f : Element (Option ElementId) → Element (Option ElementId)) : Prop where
  name : ∀ e, (f e).name = e.name
  parent : ∀ e, (f e).parent = e.parent
  typeInfo : ∀ e, (f e).typeInfo = e.typeInfo
  isDefinition : ∀ e, (f e).isDefinition = e.isDefinition
  location : ∀ e, (f e).location = e.location
  metadata : ∀ e, (f e).metadata = e.metadata

theorem untouched_modifyElement {id j : ElementId} (hne : j ≠ id)
    (f : Element (Option ElementId) → Element (Option ElementId)) :
    d.Untouched (d.modifyElement id f) j := by
  unfold Untouched
  rw [element_modifyElement, if_neg fun h => hne h.1]

theorem grows_modifyElement {id : ElementId}
    {f : Element (Option ElementId) → Element (Option ElementId)} (hf : KeepsHead f)
    (hn : ∀ item, d.progress.find? item = some (.started id) → some id = mine) :
    d.Grows mine (d.modifyElement id f) :=
  { Grows.refl mine d with
    size := by simp
    item := fun j _ => itemOf_modifyElement d id j f
    typeInfo := fun j _ => by
      rw [element_modifyElement]
      split
      · exact hf.typeInfo _
      · rfl
    parent := fun j h => by
      rw [element_modifyElement]
      split
      · rw [hf.parent]
        exact h
      · exact h
    spared := fun item j hne hj => by
      have hji : j ≠ id := by
        rintro rfl
        exact hne (hn item hj)
      exact ⟨untouched_modifyElement hji f, fun _ _ => rfl, fun _ _ => ⟨rfl, rfl⟩⟩ }

theorem Indexed.modifyElement (h : d.Indexed) {id : ElementId}
    {f : Element (Option ElementId) → Element (Option ElementId)}
    (ht : ∀ e, (f e).typeInfo = e.typeInfo)
    (hm : ∀ x ∈ (f (d.element id)).mentioned, x.index < d.elements.size) :
    (d.modifyElement id f).Indexed where
  progress item p hp := by
    rw [size_modifyElement, itemOf_modifyElement]
    exact h.progress item p hp
  element j hj := by
    rw [size_modifyElement] at hj
    rw [itemOf_modifyElement]
    exact h.element j hj
  place j hj := by
    rw [size_modifyElement] at hj
    rw [itemOf_modifyElement, element_modifyElement]
    split
    · rw [ht]
      exact h.place j hj
    · exact h.place j hj
  places := h.places
  filled := h.filled
  valueFilled := h.valueFilled
  narrowed := h.narrowed
  types := h.types
  mentioned j x hx := by
    rw [size_modifyElement]
    rw [element_modifyElement] at hx
    split at hx
    · next hj =>
      rw [hj.1] at hx
      exact hm x hx
    · exact h.mentioned j x hx

/-- With a parent for an element. -/
def adopted (d : Draft) (id parent : ElementId) : Draft :=
  d.modifyElement id fun e => { e with parent := some parent }

theorem untouched_adopted (d : Draft) (id parent j : ElementId) :
    d.Untouched (d.adopted id parent) j := by
  unfold Untouched adopted
  rw [element_modifyElement]
  split <;> rfl

theorem grows_adopted (mine : Option ElementId) (d : Draft) (id parent : ElementId) :
    d.Grows mine (d.adopted id parent) :=
  { Grows.refl mine d with
    size := by simp [adopted]
    item := fun j _ => itemOf_modifyElement d id j _
    typeInfo := fun j _ => by rw [untouched_adopted d id parent j]
    parent := fun j h => by
      unfold adopted
      rw [element_modifyElement]
      split
      · rfl
      · exact h
    spared := fun _ j _ _ =>
      ⟨untouched_adopted d id parent j, fun _ _ => rfl, fun _ _ => ⟨rfl, rfl⟩⟩ }

theorem Indexed.adopted (h : d.Indexed) {id parent : ElementId}
    (hp : parent.index < d.elements.size) : (d.adopted id parent).Indexed := by
  refine h.modifyElement (fun _ => rfl) fun x hx => ?_
  rcases List.mem_append.1 hx with hx | hx
  · cases List.mem_singleton.1 hx
    exact hp
  · exact h.mentioned id x (List.mem_append_right _ hx)

/-! ### Filling a place -/

/-- A place of the item: of its type or of its value. -/
def IsPlaceOf (d : Draft) (item : ItemId) (place : TypeInfoId) : Prop :=
  d.places.find? item = some place ∨ d.valuePlaces.find? item = some place

theorem Indexed.isPlaceOf_unique (h : d.Indexed) {i j : ItemId} {place : TypeInfoId}
    (hi : d.IsPlaceOf i place) (hj : d.IsPlaceOf j place) : i = j := by
  rcases hi with hi | hi <;> rcases hj with hj | hj
  · exact h.place_inj hi hj
  · exact absurd rfl (h.place_ne_valuePlace hi hj)
  · exact absurd rfl (h.place_ne_valuePlace hj hi)
  · exact h.valuePlace_inj hi hj

theorem Indexed.isPlaceOf_lt (h : d.Indexed) {item : ItemId} {place : TypeInfoId}
    (hp : d.IsPlaceOf item place) : place.index < d.typeInfos.size :=
  hp.elim h.place_lt h.valuePlace_lt

theorem get?_fill_of_ne {place p : TypeInfoId} (info : TypeInfo) (h : p ≠ place) :
    (d.fill place info).typeInfos.get? p = d.typeInfos.get? p := by
  show (d.typeInfos.fill place info).get? p = _
  rw [TypeInfoArena.get?_fill, if_neg fun hp => h hp.1]

theorem get?_fill_self {place : TypeInfoId} (info : TypeInfo)
    (h : place.index < d.typeInfos.size) :
    (d.fill place info).typeInfos.get? place = some info := by
  show (d.typeInfos.fill place info).get? place = _
  rw [TypeInfoArena.get?_fill, if_pos ⟨rfl, h⟩]

/-- Filling an empty place of an element that is being built. -/
theorem grows_fill (h : d.Indexed) {item : ItemId} {id : ElementId} {place : TypeInfoId}
    (hi : d.progress.find? item = some (.started id)) (hp : d.IsPlaceOf item place)
    (hv : d.typeInfos.get? place = none) (info : TypeInfo) :
    d.Grows (some id) (d.fill place info) :=
  { Grows.refl (some id) d with
    spared := fun j jd hne hj => by
      have hother : ∀ p, d.IsPlaceOf j p → p ≠ place := by
        rintro p hjp rfl
        have hij := h.isPlaceOf_unique hp hjp
        subst hij
        rw [hi] at hj
        cases hj
        exact hne rfl
      exact ⟨.refl d jd, fun p hjp => get?_fill_of_ne info (hother p (.inl hjp)),
        fun p hjp => ⟨get?_fill_of_ne info (hother p (.inr hjp)), rfl⟩⟩
    filled := fun p i hpi => by
      have hne : p ≠ place := by rintro rfl; rw [hv] at hpi; cases hpi
      rw [get?_fill_of_ne info hne]
      exact hpi }

theorem Indexed.fill (h : d.Indexed) {item : ItemId} {place : TypeInfoId}
    (hi : (d.idOf? item).isSome) (hp : d.IsPlaceOf item place)
    (hn : d.narrowings.find? place = none) {info : TypeInfo}
    (hm : ∀ q ∈ info.shape.mentioned, q.index < d.typeInfos.size) :
    (d.fill place info).Indexed where
  progress := h.progress
  element := h.element
  place := h.place
  places := by
    show (d.places.values ++ d.valuePlaces.values).Perm (d.typeInfos.fill place info).ids
    unfold TypeInfoArena.ids
    rw [TypeInfoArena.size_fill]
    exact h.places
  filled j p hj hf := by
    by_cases hpp : p = place
    · subst hpp
      rw [h.isPlaceOf_unique (.inl hj) hp]
      exact hi
    · rw [get?_fill_of_ne info hpp] at hf
      exact h.filled j p hj hf
  valueFilled j p hj hf := by
    by_cases hpp : p = place
    · subst hpp
      rw [h.isPlaceOf_unique (.inr hj) hp]
      exact hi
    · rw [get?_fill_of_ne info hpp] at hf
      exact h.valueFilled j p hj hf
  narrowed p n hpn := by
    have hne : p ≠ place := by
      rintro rfl
      have hpn : d.narrowings.find? p = some n := hpn
      rw [hn] at hpn
      cases hpn
    obtain ⟨hg, hsource, j, hj⟩ := h.narrowed p n hpn
    refine ⟨(get?_fill_of_ne info hne).trans hg, ?_, j, hj⟩
    show n.source.index < (d.typeInfos.fill place info).size
    rw [TypeInfoArena.size_fill]
    exact hsource
  types p i hpi q hq := by
    show q.index < (d.typeInfos.fill place info).size
    rw [TypeInfoArena.size_fill]
    by_cases hpp : p = place
    · subst hpp
      rw [get?_fill_self info (h.isPlaceOf_lt hp)] at hpi
      cases hpi
      exact hm q hq
    · rw [get?_fill_of_ne info hpp] at hpi
      exact h.types p i hpi q hq
  mentioned := h.mentioned

/-- With a narrowing to be worked out at the end. -/
def narrowedAt (d : Draft) (place : TypeInfoId) (n : Narrowing) : Draft :=
  { d with narrowings := d.narrowings.insert place n }

theorem grows_narrowedAt (h : d.Indexed) {item : ItemId} {id : ElementId} {place : TypeInfoId}
    (hi : d.progress.find? item = some (.started id)) (hp : d.valuePlaces.find? item = some place)
    (hv : d.narrowings.find? place = none) (n : Narrowing) :
    d.Grows (some id) (d.narrowedAt place n) :=
  { Grows.refl (some id) d with
    spared := fun j jd hne hj => by
      refine ⟨.refl d jd, fun _ _ => rfl, fun p hjp => ⟨rfl, ?_⟩⟩
      have hpp : p ≠ place := by
        rintro rfl
        have hij := h.valuePlace_inj hp hjp
        subst hij
        rw [hi] at hj
        cases hj
        exact hne rfl
      show (d.narrowings.insert place n).find? p = _
      rw [OrderedMap.find?_insert, if_neg hpp]
    narrowings := fun p m hpm => by
      have hpp : p ≠ place := by rintro rfl; rw [hv] at hpm; cases hpm
      show (d.narrowings.insert place n).find? p = some m
      rw [OrderedMap.find?_insert, if_neg hpp]
      exact hpm }

theorem Indexed.narrowedAt (h : d.Indexed) {item : ItemId} {place : TypeInfoId} {n : Narrowing}
    (hi : (d.idOf? item).isSome) (hp : d.valuePlaces.find? item = some place)
    (hv : d.typeInfos.get? place = none) (hn : n.source.index < d.typeInfos.size) :
    (d.narrowedAt place n).Indexed where
  progress := h.progress
  element := h.element
  place := h.place
  places := h.places
  filled := h.filled
  valueFilled j p hj hf := by
    by_cases hpp : p = place
    · subst hpp
      rw [h.valuePlace_inj hj hp]
      exact hi
    · refine h.valueFilled j p hj (hf.imp_right fun hf => ?_)
      replace hf : ((d.narrowings.insert place n).find? p).isSome := hf
      rw [OrderedMap.find?_insert, if_neg hpp] at hf
      exact hf
  narrowed p m hpm := by
    replace hpm : (d.narrowings.insert place n).find? p = some m := hpm
    rw [OrderedMap.find?_insert] at hpm
    split at hpm
    · next hpp =>
      cases hpm
      rw [hpp]
      exact ⟨hv, hn, item, hp⟩
    · exact h.narrowed p m hpm
  types := h.types
  mentioned := h.mentioned

/-! ### Tasks -/

theorem grows_enqueue (mine : Option ElementId) (d : Draft) (task : Task) :
    d.Grows mine (d.enqueue task) :=
  { Grows.refl mine d with
    spared := fun _ _ _ _ => ⟨rfl, fun _ _ => rfl, fun _ _ => ⟨rfl, rfl⟩⟩
    tasks := fun _ ht => List.mem_append_left _ ht }

theorem Indexed.enqueue (h : d.Indexed) (task : Task) : (d.enqueue task).Indexed :=
  ⟨h.progress, h.element, h.place, h.places, h.filled, h.valueFilled, h.narrowed, h.types,
    h.mentioned⟩

/-! ### Beginning and finishing an element -/

/-- With a new element for an item, which has a place already. -/
def begun (d : Draft) (item : ItemId) (e : Element (Option ElementId)) : Draft :=
  { d with
    progress := d.progress.insert item (.started d.nextId), elements := d.elements.push ⟨e, item⟩ }

theorem draftElement_begun (d : Draft) (item : ItemId) (e : Element (Option ElementId))
    (j : ElementId) : (d.begun item e).draftElement j =
      if j = d.nextId then ⟨e, item⟩ else d.draftElement j := by
  obtain ⟨j⟩ := j
  simp only [draftElement, begun, nextId, Array.getD_eq_getD_getElem?, Array.getElem?_push,
    ElementId.mk.injEq]
  split <;> rfl

theorem element_begun (d : Draft) (item : ItemId) (e : Element (Option ElementId)) (j : ElementId) :
    (d.begun item e).element j = if j = d.nextId then e else d.element j := by
  unfold element
  rw [draftElement_begun]
  split <;> rfl

theorem itemOf_begun (d : Draft) (item : ItemId) (e : Element (Option ElementId)) (j : ElementId) :
    (d.begun item e).itemOf j = if j = d.nextId then item else d.itemOf j := by
  unfold itemOf
  rw [draftElement_begun]
  split <;> rfl

theorem size_begun (d : Draft) (item : ItemId) (e : Element (Option ElementId)) :
    (d.begun item e).elements.size = d.elements.size + 1 := by simp [begun]

theorem ne_nextId_of_lt {j : ElementId} (h : j.index < d.elements.size) : j ≠ d.nextId := by
  rintro rfl
  exact Nat.lt_irrefl _ h

theorem find?_progress_begun (d : Draft) (item j : ItemId) (e : Element (Option ElementId)) :
    (d.begun item e).progress.find? j =
      if j = item then some (.started d.nextId) else d.progress.find? j :=
  OrderedMap.find?_insert _ _ _ _

theorem grows_begun (h : d.Indexed) {item : ItemId} (hn : d.progress.find? item = none)
    {e : Element (Option ElementId)} : d.Grows (some d.nextId) (d.begun item e) :=
  { Grows.refl (some d.nextId) d with
    size := by rw [size_begun]; omega
    item := fun j hj => by rw [itemOf_begun, if_neg (ne_nextId_of_lt hj)]
    typeInfo := fun j hj => by rw [element_begun, if_neg (ne_nextId_of_lt hj)]
    parent := fun j hj => by
      rw [element_begun]
      split
      · next hj' =>
        have hnone : d.element j = default := element_of_size_le (by rw [hj']; exact Nat.le_refl _)
        rw [hnone] at hj
        cases hj
      · exact hj
    progress := fun i p hp => by
      have hne : i ≠ item := by rintro rfl; rw [hn] at hp; cases hp
      exact ⟨p, by rw [find?_progress_begun, if_neg hne]; exact hp, rfl, fun _ => rfl⟩
    finished := fun i p hi hp => by
      rw [find?_progress_begun] at hp
      split at hp
      · cases hp
        exact .inr rfl
      · rw [hi] at hp
        cases hp
    spared := fun i j hne hj => by
      have hlt : j.index < d.elements.size := (h.progress i _ hj).1
      refine ⟨?_, fun _ _ => rfl, fun _ _ => ⟨rfl, rfl⟩⟩
      unfold Untouched
      rw [element_begun, if_neg (ne_nextId_of_lt hlt)] }

theorem Indexed.begun (h : d.Indexed) {item : ItemId} (hn : d.progress.find? item = none)
    {e : Element (Option ElementId)} (hp : d.places.find? item = some e.typeInfo)
    (hm : ∀ x ∈ e.mentioned, x.index < d.elements.size) : (d.begun item e).Indexed where
  progress i p hi := by
    rw [size_begun, itemOf_begun]
    rw [find?_progress_begun] at hi
    split at hi
    · next he =>
      cases hi
      refine ⟨Nat.lt_succ_self _, ?_⟩
      rw [if_pos (show (Progress.started d.nextId).id = d.nextId from rfl), he]
    · obtain ⟨hlt, hitem⟩ := h.progress i p hi
      rw [if_neg (ne_nextId_of_lt hlt)]
      exact ⟨by omega, hitem⟩
  element j hj := by
    rw [size_begun] at hj
    rw [itemOf_begun]
    unfold idOf?
    rw [find?_progress_begun]
    by_cases hnew : j = d.nextId
    · rw [if_pos hnew, if_pos rfl, hnew]
      rfl
    · have hlt : j.index < d.elements.size := by
        have hne : j.index ≠ d.elements.size := fun he => hnew (by cases j; cases he; rfl)
        omega
      have hold := h.element j hlt
      have hne : d.itemOf j ≠ item := by
        intro he
        unfold idOf? at hold
        rw [he, hn] at hold
        cases hold
      rw [if_neg hnew, if_neg hne]
      exact hold
  place j hj := by
    rw [size_begun] at hj
    rw [itemOf_begun, element_begun]
    by_cases hnew : j = d.nextId
    · rw [if_pos hnew, if_pos hnew]
      exact hp
    · rw [if_neg hnew, if_neg hnew]
      refine h.place j ?_
      have hne : j.index ≠ d.elements.size := fun he => hnew (by cases j; cases he; rfl)
      omega
  places := h.places
  filled i p hi hf := by
    have hold := h.filled i p hi hf
    obtain ⟨id, hid⟩ := Option.isSome_iff_exists.1 hold
    rw [(grows_begun h hn).idOf? hid]
    rfl
  valueFilled i p hi hf := by
    have hold := h.valueFilled i p hi hf
    obtain ⟨id, hid⟩ := Option.isSome_iff_exists.1 hold
    rw [(grows_begun h hn).idOf? hid]
    rfl
  narrowed := h.narrowed
  types := h.types
  mentioned j x hx := by
    rw [size_begun]
    rw [element_begun] at hx
    split at hx
    · exact Nat.lt_succ_of_lt (hm x hx)
    · exact Nat.lt_succ_of_lt (h.mentioned j x hx)

/-- With the element of an item finished. -/
def done (d : Draft) (item : ItemId) (id : ElementId) : Draft :=
  { d with progress := d.progress.insert item (.finished id) }

theorem find?_progress_done (d : Draft) (item j : ItemId) (id : ElementId) :
    (d.done item id).progress.find? j =
      if j = item then some (.finished id) else d.progress.find? j :=
  OrderedMap.find?_insert _ _ _ _

theorem idOf?_done {item : ItemId} {id : ElementId} (h : d.idOf? item = some id) (j : ItemId) :
    (d.done item id).idOf? j = d.idOf? j := by
  unfold idOf?
  rw [find?_progress_done]
  split
  · next hj =>
    subst hj
    exact h.symm
  · rfl

theorem grows_done {item : ItemId} {id : ElementId}
    (hi : d.progress.find? item = some (.started id)) : d.Grows (some id) (d.done item id) :=
  { Grows.refl (some id) d with
    progress := fun j p hj => by
      rw [find?_progress_done]
      split
      · next he =>
        subst he
        rw [hi] at hj
        cases hj
        exact ⟨_, rfl, rfl, fun hne => absurd rfl hne⟩
      · exact ⟨p, hj, rfl, fun _ => rfl⟩
    finished := fun j p hj hp => by
      rw [find?_progress_done] at hp
      split at hp
      · cases hp
        exact .inl rfl
      · rw [hj] at hp
        cases hp
    spared := fun _ _ _ _ => ⟨rfl, fun _ _ => rfl, fun _ _ => ⟨rfl, rfl⟩⟩ }

theorem Indexed.done (h : d.Indexed) {item : ItemId} {id : ElementId}
    (hi : d.idOf? item = some id) : (d.done item id).Indexed where
  progress j p hj := by
    rw [find?_progress_done] at hj
    split at hj
    · next he =>
      cases hj
      rw [he]
      exact ⟨h.lt_of_idOf? hi, h.itemOf_of_idOf? hi⟩
    · exact h.progress j p hj
  element j hj := (idOf?_done hi _).trans (h.element j hj)
  place := h.place
  places := h.places
  filled j p hj hf := by
    rw [idOf?_done hi]
    exact h.filled j p hj hf
  valueFilled j p hj hf := by
    rw [idOf?_done hi]
    exact h.valueFilled j p hj hf
  narrowed := h.narrowed
  types := h.types
  mentioned := h.mentioned

/-- What was built of one item from its beginning to its end is growth for all others. -/
theorem Grows.close {d' : Draft} (h : d.Indexed) {id : ElementId} (g : d.Grows (some id) d')
    (hid : d.elements.size ≤ id.index)
    (hend : ∀ item p, d'.progress.find? item = some p → p.id = id → p = .finished id) :
    d.Grows none d' :=
  { g with
    progress := fun item p hp => by
      obtain ⟨p', hp', he, heq⟩ := g.progress item p hp
      refine ⟨p', hp', he, fun _ => heq fun hs => ?_⟩
      have hlt := (h.progress item p hp).1
      rw [Option.some.inj hs] at hlt
      omega
    finished := fun item p hn hp => by
      rcases g.finished item p hn hp with hf | hm
      · exact .inl hf
      · have hpid := Option.some.inj hm
        left
        rw [hpid]
        exact hend item p hp hpid
    spared := fun item j _ hj => by
      refine g.spared item j (fun hs => ?_) hj
      have hlt : j.index < d.elements.size := (h.progress item _ hj).1
      rw [Option.some.inj hs] at hlt
      omega }

end Schemata.Draft
