import Schemata.Proofs.Draft.Completion

/-! Closing a draft.

A draft closes to a graph exactly when no link is open and every place is filled.
The elements and the types of the graph are those of the draft. -/
namespace Schemata

variable {d : Draft} {id : ElementId} {place : TypeInfoId} {failure : Failure}

/-! ### Links -/

namespace ElementData

/-- The same data with all links known. -/
structure Closes (data : ElementData (Option ElementId)) (data' : ElementData ElementId) :
    Prop where
  kind : data'.kind = data.kind
  members : data'.members = data.members
  definitions : data'.definitions = data.definitions
  valueName : data'.valueName? = data.valueName?
  owned : data'.owned some = data.owned fun link => link
  crossing : data'.crossing some = data.crossing fun link => link
  links : ∀ l, data.linkAt l = (data'.linkAt l).map some

theorem mapM_id_eq_some {l : List (Option ElementId)} {r : List ElementId}
    (h : l.mapM (fun link => link) = some r) : l = r.map some := by
  induction l generalizing r with
  | nil =>
    cases h
    rfl
  | cons x rest ih =>
    rw [List.mapM_cons] at h
    cases x with
    | none => cases h
    | some y =>
      cases hrest : rest.mapM (fun link => link) with
      | none =>
        rw [hrest] at h
        cases h
      | some ys =>
        rw [hrest] at h
        cases h
        rw [List.map_cons, ← ih hrest]

theorem mapM_id_of_all {l : List (Option ElementId)} (h : ∀ x ∈ l, x.isSome) :
    ∃ r, l.mapM (fun link => link) = some r := by
  induction l with
  | nil => exact ⟨[], rfl⟩
  | cons x rest ih =>
    obtain ⟨y, rfl⟩ := Option.isSome_iff_exists.1 (h x List.mem_cons_self)
    obtain ⟨ys, hys⟩ := ih fun z hz => h z (List.mem_cons_of_mem _ hz)
    refine ⟨y :: ys, ?_⟩
    rw [List.mapM_cons, hys]
    rfl

theorem filterMap_map_some (r : List ElementId) :
    (r.map some).filterMap (fun link => link) = r := by
  induction r with
  | nil => rfl
  | cons x rest ih =>
    rw [List.map_cons, List.filterMap_cons]
    exact congrArg _ ih

theorem closes_of_traverseLinks {data : ElementData (Option ElementId)}
    {data' : ElementData ElementId} (h : data.traverseLinks (fun link => link) = some data') :
    data.Closes data' := by
  cases data with
  | compound children definitions bases derived =>
    obtain ⟨r, hr, rfl⟩ := Option.map_eq_some_iff.1 h
    have hbases := mapM_id_eq_some hr
    refine ⟨rfl, rfl, rfl, rfl, rfl, ?_, fun l => ?_⟩
    · simp only [crossing]
      rw [hbases, filterMap_map_some, List.filterMap_some]
    · cases l <;> simp [linkAt, hbases]
  | variant variations =>
    obtain ⟨r, hr, rfl⟩ := Option.map_eq_some_iff.1 h
    have hvariations := mapM_id_eq_some hr
    refine ⟨rfl, rfl, rfl, rfl, ?_, rfl, fun l => ?_⟩
    · simp only [ElementData.owned]
      rw [hvariations, filterMap_map_some, List.filterMap_some]
    · cases l <;> simp [linkAt, hvariations]
  | reference target | list target =>
    obtain ⟨x, rfl, rfl⟩ := Option.map_eq_some_iff.1 h
    refine ⟨rfl, rfl, rfl, rfl, rfl, rfl, fun l => ?_⟩
    cases l <;> rfl
  | _ =>
    cases h
    refine ⟨rfl, rfl, rfl, rfl, rfl, rfl, fun l => ?_⟩
    cases l <;> rfl

/-- Data without open links can be closed. -/
theorem traverseLinks_isSome {data : ElementData (Option ElementId)}
    (h : ∀ l x, data.linkAt l = some x → x.isSome) :
    (data.traverseLinks fun link => link).isSome := by
  have hall : ∀ (links : List (Option ElementId)) (kind : Nat → Link),
      (∀ i, data.linkAt (kind i) = links[i]?) → ∃ r, links.mapM (fun link => link) = some r := by
    intro links kind hkind
    refine mapM_id_of_all fun x hx => ?_
    obtain ⟨i, hi⟩ := List.mem_iff_getElem?.1 hx
    exact h (kind i) x ((hkind i).trans hi)
  cases data with
  | compound children definitions bases derived =>
    obtain ⟨r, hr⟩ := hall bases .base fun _ => rfl
    simp only [traverseLinks]
    rw [hr]
    rfl
  | variant variations =>
    obtain ⟨r, hr⟩ := hall variations .variation fun _ => rfl
    simp only [traverseLinks]
    rw [hr]
    rfl
  | reference target | list target =>
    obtain ⟨x, hx⟩ := Option.isSome_iff_exists.1 (h .target target rfl)
    rw [hx]
    rfl
  | _ => rfl

end ElementData

/-! ### Elements -/

/-- The same element with all links known. -/
structure Element.Closes (e : Element (Option ElementId)) (e' : Element ElementId) : Prop where
  name : e'.name = e.name
  parent : e'.parent = e.parent
  typeInfo : e'.typeInfo = e.typeInfo
  metadata : e'.metadata = e.metadata
  isDefinition : e'.isDefinition = e.isDefinition
  attributeNames : e'.attributeNames = e.attributeNames
  extensions : e'.extensions = e.extensions
  data : e.data.Closes e'.data

namespace Draft

theorem closeElement_ok {e : Element (Option ElementId)} {e' : Element ElementId}
    (h : closeElement e = .ok e') : e.Closes e' := by
  unfold closeElement at h
  split at h
  · next data hdata =>
    cases h
    exact ⟨rfl, rfl, rfl, rfl, rfl, rfl, rfl, ElementData.closes_of_traverseLinks hdata⟩
  · cases h

/-- No link is open. -/
def LinksClosed (d : Draft) : Prop :=
  ∀ id, id.index < d.elements.size → ∀ l x, (d.element id).data.linkAt l = some x → x.isSome

theorem closeElement_of_closed {e : Element (Option ElementId)}
    (h : ∀ l x, e.data.linkAt l = some x → x.isSome) : ∃ e', closeElement e = .ok e' := by
  obtain ⟨data, hdata⟩ := Option.isSome_iff_exists.1 (ElementData.traverseLinks_isSome h)
  unfold closeElement
  rw [hdata]
  exact ⟨_, rfl⟩

end Draft

/-! ### Types -/

namespace TypeInfoArena

variable {arena : TypeInfoArena} {table : TypeInfoTable}

theorem finish_ok (h : arena.finish = .ok table) :
    table.size = arena.size ∧ ∀ place, table.get? place = arena.get? place := by
  unfold finish at h
  split at h
  · cases h
  · next hnone =>
    cases h
    rw [Array.findIdx?_eq_none_iff] at hnone
    have hslots : ∀ l : List (Option TypeInfo), (∀ x ∈ l, x.isNone = false) →
        l = (l.filterMap id).map some := by
      intro l
      induction l with
      | nil => intro _; rfl
      | cons x rest ih =>
        intro hl
        cases x with
        | none => cases hl none List.mem_cons_self
        | some info =>
          rw [List.filterMap_cons]
          exact congrArg _ (ih fun y hy => hl y (List.mem_cons_of_mem _ hy))
    have hall := hslots arena.slots.toList fun x hx => hnone x (Array.mem_toList_iff.1 hx)
    have hlist : (arena.slots.filterMap id).toList = arena.slots.toList.filterMap id :=
      Array.toList_filterMap
    constructor
    · have hlength := congrArg List.length hall
      rw [List.length_map, ← hlist, Array.length_toList, Array.length_toList] at hlength
      exact hlength.symm
    · intro place
      show (arena.slots.filterMap id)[place.index]? = (arena.slots[place.index]?).join
      rw [← Array.getElem?_toList, ← Array.getElem?_toList, hlist]
      conv => rhs; rw [hall]
      rw [List.getElem?_map]
      cases (arena.slots.toList.filterMap id)[place.index]? <;> rfl

theorem finish_error (h : arena.finish = .error place) :
    place.index < arena.size ∧ arena.get? place = none := by
  unfold finish at h
  split at h
  · next index hindex =>
    cases h
    obtain ⟨hlt, hnone, _⟩ := Array.findIdx?_eq_some_iff_getElem.1 hindex
    refine ⟨hlt, ?_⟩
    unfold get?
    rw [Array.getElem?_eq_getElem hlt]
    exact Option.isNone_iff_eq_none.1 hnone
  · cases h

end TypeInfoArena

/-! ### The graph -/

namespace Draft

/-- A graph has the elements and the types of a draft. -/
structure Closes (d : Draft) (g : Graph) : Prop where
  size : g.size = d.elements.size
  element : ∀ id, id.index < d.elements.size → (d.element id).Closes (g.element id)
  typeInfos : g.typeInfos.size = d.typeInfos.size
  types : ∀ place, g.typeInfos.get? place = d.typeInfos.get? place

theorem finish_ok {g : Graph} (h : d.finish = .ok g) : d.Closes g := by
  obtain ⟨elements, helements, h⟩ := bind_eq_ok h
  obtain ⟨table, htable, h⟩ := bind_eq_ok h
  cases h
  have hall := mapM_eq_ok helements
  have hlength : d.elements.size = elements.length := by
    rw [← hall.length_eq, List.length_map, Array.length_toList]
  cases hfinish : d.typeInfos.finish with
  | error place =>
    rw [hfinish] at htable
    cases htable
  | ok table' =>
    rw [hfinish] at htable
    cases htable
    obtain ⟨hsize, hget⟩ := TypeInfoArena.finish_ok hfinish
    refine ⟨by simp [Graph.size, hlength], fun id hid => ?_, hsize, hget⟩
    have hl : id.index < (d.elements.toList.map DraftElement.element).length := by simpa using hid
    have hr := (List.forall₂_iff_get.1 hall).2 id.index hl (hlength ▸ hid)
    have hdraft : (d.elements.toList.map DraftElement.element).get ⟨id.index, hl⟩ =
        d.element id := by
      simp [Draft.element, draftElement, hid]
    have hgraph : (Graph.mk elements.toArray table).element id =
        elements.get ⟨id.index, hlength ▸ hid⟩ := by
      simp [Graph.element, hlength ▸ hid]
    rw [hgraph, ← hdraft]
    exact closeElement_ok hr

theorem finish_error (hl : d.LinksClosed) (h : d.finish = .error failure) :
    ∃ place, place.index < d.typeInfos.size ∧ d.typeInfos.get? place = none ∧
      failure = d.unfilled place := by
  rcases bind_eq_error h with h | ⟨elements, _, h⟩
  · obtain ⟨e, he, herror⟩ := mapM_eq_error h
    obtain ⟨e', he', rfl⟩ := List.mem_map.1 he
    obtain ⟨i, hi, rfl⟩ := Array.mem_iff_getElem.1 (Array.mem_toList_iff.1 he')
    have helement : d.element ⟨i⟩ = (d.elements[i]).element := by
      simp [Draft.element, draftElement, hi]
    obtain ⟨e'', hok⟩ := closeElement_of_closed (hl ⟨i⟩ hi)
    rw [← helement, hok] at herror
    cases herror
  · rcases bind_eq_error h with h | ⟨_, _, h⟩
    · cases hfinish : d.typeInfos.finish with
      | error place =>
        rw [hfinish] at h
        cases h
        obtain ⟨hlt, hnone⟩ := TypeInfoArena.finish_error hfinish
        exact ⟨place, hlt, hnone, rfl⟩
      | ok table =>
        rw [hfinish] at h
        cases h
    · cases h

end Draft
end Schemata
