import Schemata.Draft.Completion
import Schemata.Proofs.Draft.Preservation
import Schemata.Proofs.Draft.Scalars
import Schemata.Proofs.Fold

/-! What the passes after the assembly leave as it was.

They give elements their metadata, settle and name the values of simple objects
and flatten alternatives. No element, place or link is added or lost; a place
that is filled stays so, one that is narrowed stays so until it is filled; and
what a place comes to never changes. -/
namespace Schemata.Draft

open Search

variable {d d' d'' : Draft} {id : ElementId} {place : TypeInfoId}

/-! ### What is kept -/

/-- The same data but for the name of a value. -/
def SameData (data data' : ElementData (Option ElementId)) : Prop :=
  data' = data ∨ ∃ attributes name name',
    data = .simple attributes name ∧ data' = .simple attributes name'

/-- What every pass leaves as it was. -/
structure Kept (d d' : Draft) : Prop where
  elements : d'.elements.size = d.elements.size
  itemOf : ∀ id, d'.itemOf id = d.itemOf id
  element : ∀ id, d'.element id = { d.element id with
    metadata := (d'.element id).metadata, data := (d'.element id).data }
  data : ∀ id, SameData (d.element id).data (d'.element id).data
  progress : d'.progress = d.progress
  places : d'.places = d.places
  valuePlaces : d'.valuePlaces = d.valuePlaces
  typeInfos : d'.typeInfos.size = d.typeInfos.size
  filled : ∀ place, (d.typeInfos.get? place).isSome → (d'.typeInfos.get? place).isSome
  narrowings : ∀ place, d'.narrowings.find? place = d.narrowings.find? place ∨
    d'.narrowings.find? place = none ∧ (d'.typeInfos.get? place).isSome ∧
      ∃ type, d.ComesTo place type
  comesTo : ∀ place type, d'.ComesTo place type ↔ d.ComesTo place type

theorem SameData.refl (data : ElementData (Option ElementId)) : SameData data data := .inl rfl

theorem SameData.trans {a b c : ElementData (Option ElementId)} (hab : SameData a b)
    (hbc : SameData b c) : SameData a c := by
  rcases hab with rfl | ⟨attributes, name, name', rfl, rfl⟩
  · exact hbc
  · rcases hbc with rfl | ⟨attributes', m, m', hb, rfl⟩
    · exact .inr ⟨attributes, name, name', rfl, rfl⟩
    · cases hb
      exact .inr ⟨attributes, name, m', rfl, rfl⟩

/-- Whatever does not depend on the name of a value is the same. -/
theorem SameData.field {α : Type} {a b : ElementData (Option ElementId)} (h : SameData a b)
    (f : ElementData (Option ElementId) → α)
    (hf : ∀ attributes name name', f (.simple attributes name') = f (.simple attributes name)) :
    f b = f a := by
  rcases h with rfl | ⟨attributes, name, name', rfl, rfl⟩
  · rfl
  · exact hf attributes name name'

theorem SameData.named {a b : ElementData (Option ElementId)} (h : SameData a b) :
    b.named = a.named := h.field ElementData.named fun _ _ _ => rfl

theorem SameData.kind {a b : ElementData (Option ElementId)} (h : SameData a b) :
    b.kind = a.kind := h.field ElementData.kind fun _ _ _ => rfl

theorem SameData.members {a b : ElementData (Option ElementId)} (h : SameData a b) :
    b.members = a.members := h.field ElementData.members fun _ _ _ => rfl

theorem SameData.definitions {a b : ElementData (Option ElementId)} (h : SameData a b) :
    b.definitions = a.definitions := h.field ElementData.definitions fun _ _ _ => rfl

theorem Kept.refl (d : Draft) : d.Kept d :=
  ⟨rfl, fun _ => rfl, fun _ => rfl, fun _ => .refl _, rfl, rfl, rfl, rfl, fun _ h => h,
    fun _ => .inl rfl, fun _ _ => Iff.rfl⟩

theorem Kept.trans (h : d.Kept d') (h' : d'.Kept d'') : d.Kept d'' where
  elements := h'.elements.trans h.elements
  itemOf id := (h'.itemOf id).trans (h.itemOf id)
  element id := by
    rw [h'.element id]
    dsimp only
    rw [h.element id]
  data id := (h.data id).trans (h'.data id)
  progress := h'.progress.trans h.progress
  places := h'.places.trans h.places
  valuePlaces := h'.valuePlaces.trans h.valuePlaces
  typeInfos := h'.typeInfos.trans h.typeInfos
  filled place hp := h'.filled place (h.filled place hp)
  narrowings place := by
    rcases h'.narrowings place with hn' | hn'
    · rcases h.narrowings place with hn | hn
      · exact .inl (hn'.trans hn)
      · exact .inr ⟨hn'.trans hn.1, h'.filled place hn.2.1, hn.2.2⟩
    · obtain ⟨hnone, hfilled, type, hc⟩ := hn'
      exact .inr ⟨hnone, hfilled, type, (h.comesTo place type).1 hc⟩
  comesTo place type := (h'.comesTo place type).trans (h.comesTo place type)

theorem SameData.linkAt {a b : ElementData (Option ElementId)} (h : SameData a b) (l : Link) :
    b.linkAt l = a.linkAt l := h.field (fun data => data.linkAt l) fun _ _ _ => rfl

theorem SameData.edges {a b : ElementData (Option ElementId)} (h : SameData a b)
    (find : Option ElementId → Option ElementId) :
    b.owned find = a.owned find ∧ b.crossing find = a.crossing find :=
  ⟨h.field (fun data => data.owned find) fun _ _ _ => rfl,
    h.field (fun data => data.crossing find) fun _ _ _ => rfl⟩

/-- The elements that can be reached stay the same. -/
theorem Kept.walk (h : d.Kept d') (start : ElementId) : d'.walk start = d.walk start := by
  have hedges : (fun id => (d'.element id).edgesBy fun link => link) =
      fun id => (d.element id).edgesBy fun link => link := by
    funext id
    obtain ⟨howned, hcrossing⟩ := (h.data id).edges fun link => link
    unfold Element.edgesBy Element.ownedBy
    rw [howned, hcrossing, h.element id]
  unfold Draft.walk
  rw [hedges, h.elements]

/-! ### Changes to an element -/

/-- A change to metadata and the name of a value. -/
theorem Kept.of_modifyElement {f : Element (Option ElementId) → Element (Option ElementId)}
    (hf : ∀ e, f e = { e with metadata := (f e).metadata, data := (f e).data })
    (hd : SameData (d.element id).data (f (d.element id)).data) :
    d.Kept (d.modifyElement id f) where
  elements := size_modifyElement d id f
  itemOf j := itemOf_modifyElement d id j f
  element j := by
    rw [element_modifyElement]
    split
    · exact hf _
    · rfl
  data j := by
    rw [element_modifyElement]
    split
    · next hj =>
      rw [hj.1]
      exact hd
    · exact .refl _
  progress := rfl
  places := rfl
  valuePlaces := rfl
  typeInfos := rfl
  filled _ h := h
  narrowings _ := .inl rfl
  comesTo _ _ := Iff.rfl

theorem Indexed.modifyData (h : d.Indexed)
    {f : Element (Option ElementId) → Element (Option ElementId)}
    (hf : ∀ e, f e = { e with metadata := (f e).metadata, data := (f e).data })
    (hd : SameData (d.element id).data (f (d.element id)).data) :
    (d.modifyElement id f).Indexed := by
  refine h.modifyElement (fun e => by rw [hf]) fun x hx => h.mentioned id x ?_
  rw [hf, Element.mem_mentioned] at hx
  rw [Element.mem_mentioned, ← hd.named]
  exact hx

/-! ### Changes to types -/

/-- A change to what is at places, where nothing else changes. -/
theorem Kept.of_typeInfos {arena : TypeInfoArena} {narrowings : OrderedMap TypeInfoId Narrowing}
    (hsize : arena.size = d.typeInfos.size)
    (hfilled : ∀ place, (d.typeInfos.get? place).isSome → (arena.get? place).isSome)
    (hnarrowings : ∀ place, narrowings.find? place = d.narrowings.find? place ∨
      narrowings.find? place = none ∧ (arena.get? place).isSome ∧ ∃ type, d.ComesTo place type)
    (hcomes : ∀ place type,
      ({ d with typeInfos := arena, narrowings } : Draft).ComesTo place type ↔
        d.ComesTo place type) :
    d.Kept { d with typeInfos := arena, narrowings } :=
  ⟨rfl, fun _ => rfl, fun _ => rfl, fun _ => .refl _, rfl, rfl, rfl, hsize, hfilled, hnarrowings,
    hcomes⟩

/-- With the scalar of a narrowed place put there. -/
def scalarSettled (d : Draft) (place : TypeInfoId) (s : ScalarShape) : Draft :=
  { d.fill place ⟨.one, .scalar s⟩ with narrowings := d.narrowings.erase place }

theorem get?_scalarSettled (h : d.Indexed) {n : Narrowing} (hn : d.narrowings.find? place = some n)
    (s : ScalarShape) (q : TypeInfoId) : (d.scalarSettled place s).typeInfos.get? q =
      if q = place then some ⟨.one, .scalar s⟩ else d.typeInfos.get? q := by
  obtain ⟨_, _, item, hi⟩ := h.narrowed place n hn
  show (d.typeInfos.fill place _).get? q = _
  rw [TypeInfoArena.get?_fill]
  by_cases hq : q = place
  · rw [if_pos ⟨hq, h.valuePlace_lt hi⟩, if_pos hq]
  · rw [if_neg fun hp => hq hp.1, if_neg hq]

theorem kept_scalarSettled (h : d.Indexed) {n : Narrowing}
    (hn : d.narrowings.find? place = some n) {s : ScalarShape} (hs : d.ComesTo place s.type) :
    d.Kept (d.scalarSettled place s) := by
  have hget := get?_scalarSettled h hn s
  have hsame : ∀ x, x ≠ place → (d.scalarSettled place s).scalarStep x = d.scalarStep x := by
    intro x hx
    unfold scalarStep
    rw [hget, if_neg hx, show (d.scalarSettled place s).narrowings.find? x = _ from
      OrderedMap.find?_erase _ _ _, if_neg hx]
  have hhalt : (d.scalarSettled place s).scalarStep place = .halt (some s.type) := by
    unfold scalarStep
    rw [hget, if_pos rfl]
  refine .of_typeInfos (TypeInfoArena.size_fill _ _ _) (fun q hq => ?_) (fun q => ?_)
    fun q type => Ends.shortcut hsame hhalt hs q _
  · show ((d.scalarSettled place s).typeInfos.get? q).isSome
    rw [hget]
    split
    · rfl
    · exact hq
  · show (d.narrowings.erase place).find? q = _ ∨ (d.narrowings.erase place).find? q = none ∧
      ((d.scalarSettled place s).typeInfos.get? q).isSome ∧ ∃ type, d.ComesTo q type
    rw [OrderedMap.find?_erase, hget]
    by_cases hq : q = place
    · rw [if_pos hq, if_pos hq]
      exact .inr ⟨rfl, rfl, s.type, hq ▸ hs⟩
    · rw [if_neg hq]
      exact .inl rfl

theorem Indexed.scalarSettled (h : d.Indexed) {n : Narrowing}
    (hn : d.narrowings.find? place = some n) (s : ScalarShape) :
    (d.scalarSettled place s).Indexed := by
  have hget := get?_scalarSettled h hn s
  obtain ⟨_, _, item, hi⟩ := h.narrowed place n hn
  have hid := h.valueFilled item place hi (.inr (by rw [hn]; rfl))
  -- the place is narrowed no longer, and with that it may be filled
  have herased : ({ d with narrowings := d.narrowings.erase place } : Draft).Indexed := by
    have hfind : ∀ q m, (d.narrowings.erase place).find? q = some m →
        d.narrowings.find? q = some m := fun q m hq => by
      rw [OrderedMap.find?_erase] at hq
      split at hq
      · cases hq
      · exact hq
    refine ⟨h.progress, h.element, h.place, h.places, h.filled, fun j q hj hq => ?_,
      fun q m hq => h.narrowed q m (hfind q m hq), h.types, h.mentioned⟩
    refine h.valueFilled j q hj (hq.imp_right fun hq => ?_)
    obtain ⟨m, hm⟩ := Option.isSome_iff_exists.1 hq
    rw [hfind q m hm]
    rfl
  exact herased.fill hid (.inr hi)
    (show (d.narrowings.erase place).find? place = none by
      rw [OrderedMap.find?_erase, if_pos rfl]) fun q hq => by cases hq

/-! ### The name of a value -/

section Rename

variable {name : String} {fields : OrderedMap String TypeInfoId}

theorem lookup_rename {l : List (String × TypeInfoId)}
    (hname : name = Blueprint.valuePlaceholder ∨ name ∉ l.map Prod.fst) :
    (l.map fun e => if e.1 = Blueprint.valuePlaceholder then (name, e.2) else e).lookup name =
      l.lookup Blueprint.valuePlaceholder := by
  induction l with
  | nil => rfl
  | cons e rest ih =>
    have hrest : name = Blueprint.valuePlaceholder ∨ name ∉ rest.map Prod.fst :=
      hname.imp_right fun hn hmem => hn (List.mem_cons_of_mem _ hmem)
    rw [List.map_cons, OrderedMap.lookup_cons, OrderedMap.lookup_cons, ih hrest]
    by_cases he : e.1 = Blueprint.valuePlaceholder
    · rw [if_pos he, if_pos rfl, if_pos he.symm]
    · have hne : name ≠ e.1 := by
        rcases hname with rfl | hn
        · exact Ne.symm he
        · exact fun h => hn (h ▸ List.mem_cons_self)
      rw [if_neg he, if_neg hne, if_neg (Ne.symm he)]

theorem map_fst_rename (name : String) (l : List (String × TypeInfoId)) :
    (l.map fun e => if e.1 = Blueprint.valuePlaceholder then (name, e.2) else e).map Prod.fst =
      (l.map Prod.fst).map fun key => if key = Blueprint.valuePlaceholder then name else key := by
  rw [List.map_map, List.map_map]
  refine List.map_congr_left fun e _ => ?_
  dsimp only [Function.comp]
  split <;> rfl

theorem nodup_rename (hname : name = Blueprint.valuePlaceholder ∨ fields.find? name = none) :
    ((fields.entries.map fun e =>
      if e.1 = Blueprint.valuePlaceholder then (name, e.2) else e).map Prod.fst).Nodup := by
  rw [map_fst_rename]
  refine List.Nodup.map_on (fun j hj k hk hjk => ?_) fields.nodup_keys
  rcases hname with rfl | hn
  · have hsame : ∀ key : String,
        (if key = Blueprint.valuePlaceholder then Blueprint.valuePlaceholder else key) = key :=
      fun key => by
        split
        · next he => exact he.symm
        · rfl
    rwa [hsame, hsame] at hjk
  · have hkeys := (OrderedMap.find?_eq_none_iff _ _).1 hn
    have hjn : j ≠ name := fun h => hkeys (h ▸ hj)
    have hkn : k ≠ name := fun h => hkeys (h ▸ hk)
    split at hjk <;> split at hjk
    · next h₁ h₂ => rw [h₁, h₂]
    · exact absurd hjk.symm hkn
    · exact absurd hjk hjn
    · exact hjk

/-- The names of fields after the value's has got its own depend on the names before only. -/
theorem keys_renameValue_congr {fields' : OrderedMap String TypeInfoId}
    (h : fields'.keys = fields.keys) :
    (renameValue name fields').keys = (renameValue name fields).keys := by
  refine OrderedMap.keys_ofList_congr ?_
  rw [map_fst_rename, map_fst_rename]
  exact congrArg _ h

/-- The field of the value is found under its name. -/
theorem find?_renameValue (hname : name = Blueprint.valuePlaceholder ∨ fields.find? name = none) :
    (renameValue name fields).find? name = fields.find? Blueprint.valuePlaceholder := by
  unfold renameValue OrderedMap.find?
  rw [OrderedMap.entries_ofList (nodup_rename hname)]
  refine lookup_rename (hname.imp_right fun hn => ?_)
  exact (OrderedMap.find?_eq_none_iff _ _).1 hn

/-- The field of the value gets its name, and all others stay. -/
theorem entries_renameValue {place : TypeInfoId} {l : List (String × TypeInfoId)}
    (hname : name = Blueprint.valuePlaceholder ∨ fields.find? name = none)
    (hfields : fields.entries = (Blueprint.valuePlaceholder, place) :: l) :
    (renameValue name fields).entries = (name, place) :: l := by
  have hkeys := fields.nodup_keys
  rw [hfields, List.map_cons, List.nodup_cons] at hkeys
  unfold renameValue
  rw [OrderedMap.entries_ofList (nodup_rename hname), hfields, List.map_cons, if_pos rfl]
  refine congrArg _ ((List.map_congr_left fun e he => if_neg fun hkey => ?_).trans (List.map_id l))
  exact hkeys.1 (List.mem_map.2 ⟨e, he, hkey⟩)

theorem mem_values_renameValue {q : TypeInfoId} (h : q ∈ (renameValue name fields).values) :
    q ∈ fields.values := by
  have hmem := OrderedMap.mem_values_ofList h
  rw [List.map_map] at hmem
  obtain ⟨e, he, rfl⟩ := List.mem_map.1 hmem
  refine List.mem_map.2 ⟨e, he, ?_⟩
  dsimp only [Function.comp]
  split <;> rfl

end Rename

end Schemata.Draft
