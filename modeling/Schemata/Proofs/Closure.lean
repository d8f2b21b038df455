import Schemata.Compilation
import Schemata.Proofs.Draft.Build

/-! Finished graphs are closed.

Whatever tree a graph is built from, nothing in the graph names what is not there,
and every type has one owner: the element whose type it is, or the simple object
whose value has it. -/
namespace Schemata

/-! ### What closed means -/

namespace TypeInfoTable

/-- The places of a table. -/
def ids (table : TypeInfoTable) : List TypeInfoId := (List.range table.size).map TypeInfoId.mk

theorem mem_ids (table : TypeInfoTable) (place : TypeInfoId) :
    place ∈ table.ids ↔ place.index < table.size := by
  obtain ⟨i⟩ := place
  simp [ids]

end TypeInfoTable

namespace Graph

/-- The simple objects of a graph. -/
def simples (g : Graph) : List ElementId := g.ids.filter fun id => (g.element id).kind = .simple

/-- Everything that an element names. -/
def mentioned (g : Graph) (id : ElementId) : List ElementId :=
  (g.element id).parent.toList ++ (g.element id).edges

/-- The field for the value of a simple object leads to a place, or to the type of an attribute that
has taken the name under which the value was kept. -/
def HoldsValue (g : Graph) (id : ElementId) (place : TypeInfoId) : Prop :=
  ∃ attributes name arity c field, (g.element id).data = .simple attributes name ∧
    g.typeInfos.get? (g.element id).typeInfo = some ⟨arity, .record c⟩ ∧
    c.fields.find? name = some field ∧
    (field = place ∨ ∃ a ∈ attributes,
      (g.element a).name = some Blueprint.valuePlaceholder ∧ field = (g.element a).typeInfo)

end Graph

/-- Nothing names what is not there, and every type has one owner. -/
structure Compiled.Closed (c : Compiled) : Prop where
  root : c.root ∈ c.graph.ids
  included : ∀ id ∈ c.included, id ∈ c.graph.ids
  elements : ∀ id ∈ c.graph.ids, ∀ x ∈ c.graph.mentioned id, x ∈ c.graph.ids
  typeInfo : ∀ id ∈ c.graph.ids, (c.graph.element id).typeInfo ∈ c.graph.typeInfos.ids
  types : ∀ place info, c.graph.typeInfos.get? place = some info →
    ∀ q ∈ info.shape.mentioned, q ∈ c.graph.typeInfos.ids
  distinct : ∀ id ∈ c.graph.ids, ∀ j ∈ c.graph.ids,
    (c.graph.element id).typeInfo = (c.graph.element j).typeInfo → id = j
  count : c.graph.typeInfos.size = c.graph.size + c.graph.simples.length
  owners : ∃ value : ElementId → TypeInfoId,
    ((c.graph.ids.map fun id => (c.graph.element id).typeInfo) ++
      c.graph.simples.map value).Perm c.graph.typeInfos.ids ∧
    ∀ id ∈ c.graph.simples, c.graph.HoldsValue id (value id)

namespace ItemTree.BuiltBy

open Draft

variable {t : ItemTree} {plugin : Plugin} {P : ItemId → Prop} {d d' : Draft} {c : Compiled}
  {id : ElementId} {item : ItemId} {place : TypeInfoId}

theorem mem_ids (h : t.BuiltBy plugin P d d' c) :
    id ∈ c.graph.ids ↔ id.index < d.elements.size := by
  obtain ⟨i⟩ := id
  rw [← h.completed.kept.elements, ← h.closes.size]
  simp [Graph.ids]

/-- The element of the graph is the one of the draft. -/
theorem element (h : t.BuiltBy plugin P d d' c) (hid : id ∈ c.graph.ids) :
    (d'.element id).Closes (c.graph.element id) :=
  h.closes.element id (h.completed.kept.elements.symm ▸ h.mem_ids.1 hid)

theorem typeInfo (h : t.BuiltBy plugin P d d' c) (hid : id ∈ c.graph.ids) :
    (c.graph.element id).typeInfo = (d.element id).typeInfo := by
  rw [(h.element hid).typeInfo, h.completed.kept.element id]

theorem kind (h : t.BuiltBy plugin P d d' c) (hid : id ∈ c.graph.ids) :
    (c.graph.element id).kind = (d.element id).kind :=
  (h.element hid).data.kind.trans (h.completed.kept.data id).kind

theorem mentioned (h : t.BuiltBy plugin P d d' c) (hid : id ∈ c.graph.ids) :
    c.graph.mentioned id = (d'.element id).mentioned := by
  have he := h.element hid
  unfold Graph.mentioned Element.mentioned Element.edges Element.edgesBy Element.ownedBy
  rw [he.parent, he.extensions, he.data.owned, he.data.crossing]

/-- Every place of a finished graph has been filled. -/
theorem filled (h : t.BuiltBy plugin P d d' c) (hp : place.index < d'.typeInfos.size) :
    (d'.typeInfos.get? place).isSome := by
  rw [← h.closes.types]
  rw [← h.closes.typeInfos] at hp
  unfold TypeInfoTable.get?
  rw [Array.getElem?_eq_getElem hp]
  rfl

/-- What has a place has an element. -/
theorem idOf?_of_place (h : t.BuiltBy plugin P d d' c) (hp : d.places.find? item = some place) :
    ∃ id, d.idOf? item = some id := by
  have hp' : d'.places.find? item = some place := h.completed.kept.places ▸ hp
  have hid := h.completed.indexed.filled item place hp'
    (h.filled (h.completed.indexed.place_lt hp'))
  unfold Draft.idOf? at hid
  rw [h.completed.kept.progress] at hid
  exact Option.isSome_iff_exists.1 hid

/-- The type of an element is at the place of its item. -/
theorem place_eq (h : t.BuiltBy plugin P d d' c) (hid : id ∈ c.graph.ids) :
    d.places.find? (d.itemOf id) = some (c.graph.element id).typeInfo := by
  rw [h.typeInfo hid]
  exact h.assembled.sound.indexed.place id (h.mem_ids.1 hid)

/-- Every place of an item is that of the type of its element. -/
theorem exists_of_place (h : t.BuiltBy plugin P d d' c) (hp : d.places.find? item = some place) :
    ∃ id ∈ c.graph.ids, d.idOf? item = some id ∧ d.itemOf id = item ∧
      (c.graph.element id).typeInfo = place := by
  have hi := h.assembled.sound.indexed
  obtain ⟨id, hid⟩ := h.idOf?_of_place hp
  have hmem := h.mem_ids.2 (hi.lt_of_idOf? hid)
  have hitem := hi.itemOf_of_idOf? hid
  refine ⟨id, hmem, hid, hitem, ?_⟩
  have hplace := h.place_eq hmem
  rw [hitem, hp] at hplace
  exact (Option.some.inj hplace).symm

theorem idOf?_of_valuePlace (h : t.BuiltBy plugin P d d' c)
    (hp : d.valuePlaces.find? item = some place) : ∃ id, d.idOf? item = some id := by
  have hp' : d'.valuePlaces.find? item = some place := h.completed.kept.valuePlaces ▸ hp
  have hid := h.completed.indexed.valueFilled item place hp'
    (.inl (h.filled (h.completed.indexed.valuePlace_lt hp')))
  unfold Draft.idOf? at hid
  rw [h.completed.kept.progress] at hid
  exact Option.isSome_iff_exists.1 hid

/-! ### Who owns a type -/

theorem nodup_typeInfos (h : t.BuiltBy plugin P d d' c) :
    (c.graph.ids.map fun id => (c.graph.element id).typeInfo).Nodup := by
  have hi := h.assembled.sound.indexed
  refine List.Nodup.map_on (fun id hid j hj he => ?_)
    (List.nodup_range.map fun _ _ hx => ElementId.mk.inj hx)
  rw [h.typeInfo hid, h.typeInfo hj] at he
  exact hi.typeInfo_inj (h.mem_ids.1 hj) (h.mem_ids.1 hid) he

theorem perm_places (h : t.BuiltBy plugin P d d' c) :
    (c.graph.ids.map fun id => (c.graph.element id).typeInfo).Perm d.places.values := by
  have hi := h.assembled.sound.indexed
  refine (List.perm_ext_iff_of_nodup h.nodup_typeInfos
    (List.nodup_append.1 hi.nodup_places).1).2 fun place => ?_
  rw [OrderedMap.mem_values_iff, List.mem_map]
  constructor
  · rintro ⟨id, hid, rfl⟩
    exact ⟨d.itemOf id, h.place_eq hid⟩
  · rintro ⟨item, hp⟩
    obtain ⟨id, hmem, _, _, hplace⟩ := h.exists_of_place hp
    exact ⟨id, hmem, hplace⟩

/-- The place of the value of a simple object. -/
def valueOf (d : Draft) (id : ElementId) : TypeInfoId :=
  (d.valuePlaces.find? (d.itemOf id)).getD ⟨0⟩

theorem mem_simples (h : t.BuiltBy plugin P d d' c) :
    id ∈ c.graph.simples ↔
      id.index < d.elements.size ∧ (t.item (d.itemOf id)).kind = some .simple := by
  unfold Graph.simples
  rw [List.mem_filter, decide_eq_true_eq]
  refine ⟨fun ⟨hid, hk⟩ => ⟨h.mem_ids.1 hid, ?_⟩, fun ⟨hlt, hk⟩ => ⟨h.mem_ids.2 hlt, ?_⟩⟩
  · rw [h.kind hid] at hk
    exact hk ▸ h.assembled.kind (h.mem_ids.1 hid)
  · rw [h.kind (h.mem_ids.2 hlt)]
    exact Option.some.inj ((h.assembled.kind hlt).symm.trans hk)

theorem find?_valueOf (h : t.BuiltBy plugin P d d' c) (hid : id ∈ c.graph.simples) :
    d.valuePlaces.find? (d.itemOf id) = some (valueOf d id) := by
  obtain ⟨hlt, hk⟩ := h.mem_simples.1 hid
  obtain ⟨info, _, hs⟩ := (h.assembled.described hlt).shaped
  obtain ⟨place, hp, _⟩ := hs.valued hk
  unfold valueOf
  rw [hp]
  rfl

theorem perm_valuePlaces (h : t.BuiltBy plugin P d d' c) :
    (c.graph.simples.map (valueOf d)).Perm d.valuePlaces.values := by
  have hi := h.assembled.sound.indexed
  have hnodup : (c.graph.simples.map (valueOf d)).Nodup := by
    refine List.Nodup.map_on (fun id hid j hj he => ?_)
      ((List.nodup_range.map fun _ _ hx => ElementId.mk.inj hx).filter _)
    have hvalue := h.find?_valueOf hid
    rw [he] at hvalue
    have hids := hi.element id (h.mem_simples.1 hid).1
    rw [hi.valuePlace_inj hvalue (h.find?_valueOf hj), hi.element j (h.mem_simples.1 hj).1] at hids
    exact (Option.some.inj hids).symm
  refine (List.perm_ext_iff_of_nodup hnodup
    (List.nodup_append.1 hi.nodup_places).2.1).2 fun place => ?_
  rw [OrderedMap.mem_values_iff, List.mem_map]
  constructor
  · rintro ⟨id, hid, rfl⟩
    exact ⟨d.itemOf id, h.find?_valueOf hid⟩
  · rintro ⟨item, hp⟩
    obtain ⟨id, hid⟩ := h.idOf?_of_valuePlace hp
    have hitem := hi.itemOf_of_idOf? hid
    have hmem : id ∈ c.graph.simples := h.mem_simples.2
      ⟨hi.lt_of_idOf? hid, hitem.symm ▸ h.assembled.sound.valuePlaces item place hp⟩
    refine ⟨id, hmem, ?_⟩
    have hvalue := h.find?_valueOf hmem
    rw [hitem, hp] at hvalue
    exact (Option.some.inj hvalue).symm

theorem perm_owners (h : t.BuiltBy plugin P d d' c) :
    ((c.graph.ids.map fun id => (c.graph.element id).typeInfo) ++
      c.graph.simples.map (valueOf d)).Perm c.graph.typeInfos.ids := by
  have hids : c.graph.typeInfos.ids = d'.typeInfos.ids := by
    unfold TypeInfoTable.ids TypeInfoArena.ids
    rw [h.closes.typeInfos]
  have hplaces := h.completed.indexed.places
  rw [h.completed.kept.places, h.completed.kept.valuePlaces] at hplaces
  rw [hids]
  exact (h.perm_places.append h.perm_valuePlaces).trans hplaces

/-! ### Where values are found -/

/-- A field of a value in the completed draft is one in the graph. -/
theorem valueField (h : t.BuiltBy plugin P d d' c) (hid : id ∈ c.graph.ids)
    (hfield : d.ValueField id place) :
    ∃ attributes name arity shape, (c.graph.element id).data = .simple attributes name ∧
      c.graph.typeInfos.get? (c.graph.element id).typeInfo = some ⟨arity, .record shape⟩ ∧
      shape.fields.find? name = some place := by
  obtain ⟨attributes, name, arity, shape, hdata, hget, hfind⟩ := h.completed.fields id place hfield
  have he := h.element hid
  refine ⟨attributes, name, arity, shape, ?_, ?_, hfind⟩
  · have hname := he.data.valueName
    have hmembers := he.data.members
    have hkind := he.data.kind
    rw [hdata] at hname hmembers hkind
    cases hd : (c.graph.element id).data with
    | simple attributes' name' =>
      rw [hd] at hname hmembers
      cases hmembers
      cases hname
      rfl
    | _ =>
      rw [hd] at hkind
      cases hkind
  · rw [h.closes.types, he.typeInfo]
    exact hget

/-- A member with a name is an element of that name, and its type is at the item's place. -/
theorem member_of_valueMember? (h : t.BuiltBy plugin P d d' c) (hid : id ∈ c.graph.ids)
    {member : ItemId} (hm : (t.blueprint plugin).valueMember? (d.itemOf id) = some member) :
    ∃ a ∈ (c.graph.element id).data.members, a ∈ c.graph.ids ∧ d.itemOf a = member ∧
      (c.graph.element a).name = some Blueprint.valuePlaceholder := by
  have hi := h.assembled.sound.indexed
  obtain ⟨n, hfind, rfl⟩ := Option.map_eq_some_iff.1 hm
  have hnamed := List.mem_reverse.1 (List.mem_of_find?_eq_some hfind)
  have hname := List.find?_some hfind
  rw [decide_eq_true_eq] at hname
  obtain ⟨child, hchild, heq⟩ := List.mem_filterMap.1 hnamed
  obtain ⟨name, heffective, rfl⟩ := Option.map_eq_some_iff.1 heq
  obtain ⟨info, _, hs⟩ := (h.assembled.described (h.mem_ids.1 hid)).shaped
  obtain ⟨a, ha, hida⟩ := exists_of_mem_left hs.members hchild
  have hlt := hi.lt_of_idOf? hida
  have hmem := h.mem_ids.2 hlt
  refine ⟨a, ?_, hmem, hi.itemOf_of_idOf? hida, ?_⟩
  · rw [(h.element hid).data.members, (h.completed.kept.data id).members]
    exact ha
  · rw [(h.element hmem).name, h.completed.kept.element a, (h.assembled.sound.head a hlt).1,
      hi.itemOf_of_idOf? hida]
    exact heffective.trans (congrArg some hname)

theorem holdsValue (h : t.BuiltBy plugin P d d' c) (hid : id ∈ c.graph.simples) :
    c.graph.HoldsValue id (valueOf d id) := by
  have hi := h.assembled.sound.indexed
  have hmem := (List.mem_filter.1 hid).1
  have hkind := of_decide_eq_true (List.mem_filter.1 hid).2
  rw [h.kind hmem] at hkind
  obtain ⟨field, hplace, hfield⟩ := h.assembled.valueField (h.mem_ids.1 hmem) hkind
  obtain ⟨attributes, name, arity, shape, hdata, hget, hfind⟩ := h.valueField hmem hfield
  refine ⟨attributes, name, arity, shape, field, hdata, hget, hfind, ?_⟩
  unfold Blueprint.valueFieldPlace? at hplace
  split at hplace
  · next member hm =>
    obtain ⟨a, ha, hmema, rfl, hname⟩ := h.member_of_valueMember? hmem hm
    rw [hdata] at ha
    refine .inr ⟨a, ha, hname, ?_⟩
    rw [h.typeInfo hmema]
    exact Option.some.inj (hplace.symm.trans (hi.place a (h.mem_ids.1 hmema)))
  · exact .inl (Option.some.inj (hplace.symm.trans (h.find?_valueOf hid)))

/-! ### All together -/

/-- The included children are among what the root names. -/
theorem included_subset (h : t.BuiltBy plugin P d d' c) :
    ∀ id ∈ c.included, id ∈ (d.element c.root).mentioned := by
  rw [h.included]
  unfold Draft.included
  intro id hid
  split at hid
  · next children definitions bases derived hdata =>
    have hchild := (List.mem_filter.1 hid).1
    unfold Element.mentioned Element.edgesBy Element.ownedBy ElementData.owned
    rw [hdata]
    simp [hchild]
  · cases hid

theorem closed (h : t.BuiltBy plugin P d d' c) : c.Closed where
  root := h.mem_ids.2 (h.assembled.sound.indexed.lt_of_idOf? h.assembled.root)
  included id hid :=
    h.mem_ids.2 (h.assembled.sound.indexed.mentioned _ id (h.included_subset id hid))
  elements id hid x hx := by
    rw [h.mentioned hid] at hx
    exact h.mem_ids.2 (h.completed.kept.elements ▸ h.completed.indexed.mentioned id x hx)
  typeInfo id hid := h.perm_owners.subset (List.mem_append_left _ (List.mem_map_of_mem hid))
  types place info hget q hq := by
    rw [h.closes.types] at hget
    rw [TypeInfoTable.mem_ids, h.closes.typeInfos]
    exact h.completed.indexed.types place info hget q hq
  distinct _ hid _ hj he := List.inj_on_of_nodup_map h.nodup_typeInfos hid hj he
  count := by
    have hlength := h.perm_owners.length_eq
    rw [List.length_append, List.length_map, List.length_map] at hlength
    simpa [TypeInfoTable.ids, Graph.ids, Graph.size] using hlength.symm
  owners := ⟨valueOf d, h.perm_owners, fun _ hid => h.holdsValue hid⟩

end ItemTree.BuiltBy

namespace ItemTree

/-- A build that fails does not leave a link open. -/
theorem cause_of_build_error {t : ItemTree} {plugin : Plugin} {failure : Failure}
    (h : t.build plugin = .error failure) (name : String) :
    failure.cause ≠ .unresolvedLink name := by
  intro hcause
  rcases build_error (Blueprint.closed_true _) h with ⟨item, _, hfault⟩ | ⟨_, _, h⟩ | ⟨_, h⟩ |
    ⟨⟨_, h⟩, _⟩
  · rcases Blueprint.cause_of_fault hfault with ⟨_, h⟩ | ⟨_, h⟩ <;> rw [hcause] at h <;> cases h
  all_goals
    rw [hcause] at h
    cases h

/-- **Finished graphs are closed.** Whatever tree is built, no build fails for a link that was never
resolved, and a graph that is finished is closed. -/
theorem build_closed (t : ItemTree) (plugin : Plugin) :
    (∀ failure, t.build plugin = .error failure → ∀ name, failure.cause ≠ .unresolvedLink name) ∧
      ∀ c, t.build plugin = .ok c → c.Closed := by
  refine ⟨fun _ h => cause_of_build_error h, fun c h => ?_⟩
  obtain ⟨d, d', hbuilt⟩ := build_ok (Blueprint.closed_true _) h
  exact hbuilt.closed

/-- Two objects that are each other's base, and a simple object. -/
def circularBases : ItemTree := ⟨#[
  { Item.object none with kind := some .compound, children := [⟨1⟩, ⟨2⟩, ⟨3⟩] },
  { Item.object (some "left") with
    kind := some .compound, parent := some root, references := [.item ⟨2⟩] },
  { Item.object (some "right") with
    kind := some .compound, parent := some root, references := [.item ⟨1⟩] },
  { Item.object (some "text") with kind := some .simple, parent := some root, children := [⟨4⟩] },
  { Item.anonymous "string" with
    kind := some .fundamental, parent := some ⟨3⟩, isSynthetic := true,
    references := [.builtin (.fundamental .string)] }]⟩

theorem circularBases_closed :
    ∃ c, circularBases.build { name := "any", capabilities := .allElements } = .ok c ∧
      c.graph.size = 4 ∧ c.Closed := by
  have hsize : (circularBases.build { name := "any", capabilities := .allElements }).toOption.map
      (fun c => c.graph.size) = some 4 := by decide +kernel
  cases h : circularBases.build { name := "any", capabilities := .allElements } with
  | error failure =>
    rw [h] at hsize
    cases hsize
  | ok c =>
    rw [h] at hsize
    exact ⟨c, rfl, Option.some.inj hsize, (build_closed circularBases _).2 c h⟩

end ItemTree
end Schemata
