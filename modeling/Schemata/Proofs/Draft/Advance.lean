import Mathlib.Algebra.BigOperators.Group.List.Basic
import Schemata.Proofs.Draft.Preservation
import Schemata.Proofs.Draft.Step

/-! Single steps of building, and how much is left to do.

`Advance` says that a step has kept what holds at every step, that the draft has
only grown, and by how many tasks there is more to do. Each step that building an
element is put together from comes with what it guarantees in these terms. -/
namespace Schemata.Blueprint

open Draft Build

variable {b : Blueprint} {P : ItemId → Prop} {due : List Task} {mine : Option ElementId}
  {d d' d'' : Draft} {fail : Failure → Prop}

/-! ### What is left to do -/

theorem outstanding_enqueue (d : Draft) (task : Task) :
    b.outstanding (d.enqueue task) = b.outstanding d + 1 := by
  have hu : b.unbuilt (d.enqueue task) = b.unbuilt d := rfl
  have ht : (d.enqueue task).tasks.length = d.tasks.length + 1 := by simp [Draft.enqueue]
  unfold outstanding
  rw [hu, ht]
  omega

theorem outstanding_pop {task : Task} {rest : List Task} (ht : d.tasks = task :: rest) :
    b.outstanding { d with tasks := rest } + 1 = b.outstanding d := by
  show rest.length + ((b.unbuilt d).map b.weight).sum + 1 = _
  unfold outstanding
  rw [ht, List.length_cons]
  omega

theorem nodup_ids (t : ItemTree) : t.ids.Nodup :=
  List.nodup_range.map fun _ _ h => ItemId.mk.inj h

theorem unbuilt_begun (d : Draft) (item : ItemId) (e : Element (Option ElementId)) :
    b.unbuilt (d.begun item e) = (b.unbuilt d).erase item := by
  have hnodup : (b.unbuilt d).Nodup := (nodup_ids b.tree).filter _
  rw [hnodup.erase_eq_filter]
  unfold unbuilt
  rw [List.filter_filter]
  refine List.filter_congr fun i _ => ?_
  rw [find?_progress_begun]
  by_cases hi : i = item
  · simp [hi]
  · simp [hi]

theorem mem_unbuilt {item : ItemId} (hn : d.progress.find? item = none) (hi : item ∈ b.tree.ids) :
    item ∈ b.unbuilt d := List.mem_filter.2 ⟨hi, by rw [hn]; rfl⟩

/-- An item that is begun has its share taken out of what may still come. -/
theorem outstanding_begun {item : ItemId} (hn : d.progress.find? item = none)
    (hi : item ∈ b.tree.ids) (e : Element (Option ElementId)) :
    b.outstanding (d.begun item e) + b.weight item = b.outstanding d := by
  have hsum := List.sum_map_erase b.weight (mem_unbuilt hn hi)
  have ht : (d.begun item e).tasks = d.tasks := rfl
  unfold outstanding
  rw [unbuilt_begun, ht]
  omega

theorem unbuilt_length_begun {item : ItemId} (hn : d.progress.find? item = none)
    (hi : item ∈ b.tree.ids) (e : Element (Option ElementId)) :
    (b.unbuilt (d.begun item e)).length + 1 = (b.unbuilt d).length := by
  rw [unbuilt_begun, List.length_erase_of_mem (mem_unbuilt hn hi)]
  have := List.length_pos_of_mem (mem_unbuilt hn hi)
  omega

theorem unbuilt_length_le (g : d.Grows mine d') : (b.unbuilt d').length ≤ (b.unbuilt d).length := by
  refine (List.monotone_filter_right _ fun i hi => ?_).length_le
  cases hp : d.progress.find? i with
  | none => rfl
  | some p =>
    obtain ⟨p', hp', _⟩ := g.progress i p hp
    rw [hp'] at hi
    cases hi

/-! ### Getting on -/

/-- A step has kept what holds at every step and leaves at most `n` more tasks. -/
structure Advance (b : Blueprint) (P : ItemId → Prop) (due : List Task) (mine : Option ElementId)
    (n : Nat) (d d' : Draft) : Prop where
  sound : b.Sound P due d'
  grows : d.Grows mine d'
  outstanding : b.outstanding d' ≤ b.outstanding d + n

theorem Advance.refl (h : b.Sound P due d) : b.Advance P due mine 0 d d :=
  ⟨h, .refl mine d, Nat.le_refl _⟩

theorem Advance.trans {m n : Nat} (h : b.Advance P due mine m d d')
    (h' : b.Advance P due mine n d' d'') : b.Advance P due mine (m + n) d d'' :=
  ⟨h'.sound, h.grows.trans h'.grows, by have := h.outstanding; have := h'.outstanding; omega⟩

theorem Advance.weaken {n : Nat} (h : b.Advance P due none n d d') (mine : Option ElementId) :
    b.Advance P due mine n d d' := ⟨h.sound, h.grows.weaken mine, h.outstanding⟩

theorem Advance.le {m n : Nat} (h : b.Advance P due mine m d d') (hmn : m ≤ n) :
    b.Advance P due mine n d d' := ⟨h.sound, h.grows, Nat.le_trans h.outstanding (by omega)⟩

/-! ### Places -/

theorem ensures_placeOf (h : b.Sound P due d) {item : ItemId} (hP : P item) :
    (placeOf item).Ensures d fail fun place d' =>
      b.Advance P due none 0 d d' ∧ d'.places.find? item = some place := by
  refine ensures_get_bind ?_
  cases hp : d.places.find? item with
  | some place => exact ensures_pure ⟨.refl h, hp⟩
  | none =>
    refine ensures_set_bind (ensures_pure ⟨?_, OrderedMap.find?_insert_self _ _ _⟩)
    exact ⟨h.reserved hP hp, grows_reserved none hp, Nat.le_refl _⟩

/-- Neither a type nor a narrowing is at a place yet. -/
structure Vacant (d : Draft) (place : TypeInfoId) : Prop where
  unfilled : d.typeInfos.get? place = none
  unnarrowed : d.narrowings.find? place = none

theorem ensures_valuePlaceOf (h : b.Sound P due d) {item : ItemId}
    (hk : (b.tree.item item).kind = some .simple) :
    (valuePlaceOf item).Ensures d fail fun place d' =>
      b.Advance P due none 0 d d' ∧ d'.valuePlaces.find? item = some place ∧
        ((∀ p, d.valuePlaces.find? item = some p → Vacant d p) → Vacant d' place) := by
  refine ensures_get_bind ?_
  cases hp : d.valuePlaces.find? item with
  | some place => exact ensures_pure ⟨.refl h, hp, fun hv => hv place rfl⟩
  | none =>
    have hs := h.valueReserved hp hk
    refine ensures_set_bind (ensures_pure ⟨⟨hs, grows_valueReserved none hp, Nat.le_refl _⟩,
      OrderedMap.find?_insert_self _ _ _, fun _ => ?_⟩)
    have hget : (d.valueReserved item).typeInfos.get? d.typeInfos.nextId = none :=
      (TypeInfoArena.get?_reserve _ _).trans (get?_nextId _)
    refine ⟨hget, ?_⟩
    cases hn : d.narrowings.find? d.typeInfos.nextId with
    | none => rfl
    | some n =>
      obtain ⟨_, _, j, hj⟩ := h.indexed.narrowed _ n hn
      exact absurd (h.indexed.valuePlace_lt hj) (Nat.lt_irrefl _)

/-! ### Links -/

/-- With a link pointed at an element that is finished. -/
theorem advance_wire (h : b.Sound P due d) {owner target : ElementId} {l : Link} {x : ItemId}
    (hlt : owner.index < d.elements.size) (hx : b.linked? (d.itemOf owner) l = some x)
    (ht : d.progress.find? (b.standIn x) = some (.finished target))
    (hm : ∀ item, d.progress.find? item = some (.started owner) → some owner = mine) :
    b.Advance P due mine 0 d (d.wire owner l target) := by
  have hid := idOf?_of_progress ht
  have hpointed : d.Grows mine (d.pointed owner l target) :=
    grows_modifyElement (keepsHead_data fun data => data.setLink l (some target)) hm
  have hs := h.pointed hlt hx hid hpointed
  rcases d.wire_eq owner l target with hw | hw <;> rw [hw]
  · exact ⟨hs, hpointed, Nat.le_refl _⟩
  · have hnoted : (d.pointed owner l target).Grows mine
        ((d.pointed owner l target).noted target owner) := by
      refine grows_modifyElement (keepsHead_data fun data => data.noteDerived owner)
        fun item hi => ?_
      -- the target is finished
      cases h.indexed.progress_unique (p := .finished target) ht hi rfl
    refine ⟨hs.noted ?_ ?_ hnoted, hpointed.trans hnoted, Nat.le_refl _⟩
    · exact (size_modifyElement d owner _).symm ▸ hlt
    · exact (size_modifyElement d owner _).symm ▸ h.indexed.lt_of_idOf? hid

theorem element_wire_self {owner target : ElementId} {l : Link}
    (hlt : owner.index < d.elements.size) (hne : owner ≠ target) :
    (d.wire owner l target).element owner =
      { d.element owner with data := (d.element owner).data.setLink l (some target) } := by
  rcases d.wire_eq owner l target with hw | hw <;> rw [hw]
  · exact element_modifyElement_self d hlt _
  · unfold noted
    rw [element_modifyElement, if_neg fun he => hne he.1]
    exact element_modifyElement_self d hlt _

/-- What following one link of the element that is being built leaves. -/
structure LinkStep (b : Blueprint) (P : ItemId → Prop) (due : List Task) (id : ElementId) (l : Link)
    (x : ItemId) (d d' : Draft) : Prop where
  advance : b.Advance P due (some id) 1 d d'
  progress : d'.progress = d.progress
  alike : Alike (d.element id) (d'.element id)
  linked : b.Linked due d' id l x
  others : ∀ l', l' ≠ l → (d'.element id).data.linkAt l' = (d.element id).data.linkAt l'

variable {item : ItemId} {id : ElementId}

theorem LinkStep.skip (h : b.Sound P due d) {l : Link} {x : ItemId} (hl : b.Linked due d id l x) :
    b.LinkStep P due id l x d d :=
  ⟨(Advance.refl h).le (Nat.zero_le 1), rfl, .of_untouched rfl, hl, fun _ _ => rfl⟩

theorem ensures_link (h : b.Sound P due d) (hs : d.progress.find? item = some (.started id))
    {l : Link} {x : ItemId} (hx : b.linked? item l = some x) (hP : P (b.standIn x))
    (hl : (d.element id).data.linkAt l = some none) :
    (b.link id l x).Ensures d fail fun _ d' => b.LinkStep P due id l x d d' := by
  have hlt : id.index < d.elements.size := (h.indexed.progress item _ hs).1
  have hitem : d.itemOf id = item := (h.indexed.progress item _ hs).2
  refine ensures_modify ?_
  dsimp only
  split
  · next target ht =>
    have hne : id ≠ target := fun he => by
      cases h.indexed.progress_unique hs ht he
    have helement := element_wire_self (l := l) hlt hne
    refine ⟨(advance_wire h hlt (hitem.symm ▸ hx) ht fun _ _ => rfl).le (Nat.zero_le 1), ?_, ?_, ?_,
      fun l' hl' => ?_⟩
    · rcases d.wire_eq id l target with hw | hw <;> rw [hw] <;> rfl
    · rw [helement]
      exact alike_setLink _ l _
    · have g : d.Grows (some id) (d.wire id l target) :=
        (advance_wire h hlt (hitem.symm ▸ hx) ht fun _ _ => rfl).grows
      unfold Linked
      rw [helement, ElementData.linkAt_setLink, if_pos ⟨rfl, by rw [hl]; rfl⟩]
      exact g.idOf? (idOf?_of_progress ht)
    · rw [helement, ElementData.linkAt_setLink, if_neg fun he => hl' he.1]
  · have hw : ∀ owner l' i, Task.wire id l (b.standIn x) = .wire owner l' i →
        owner.index < d.elements.size ∧ ∃ y, b.linked? (d.itemOf owner) l' = some y ∧
          b.standIn y = i := by
      intro owner l' i he
      cases he
      exact ⟨hlt, x, hitem.symm ▸ hx, rfl⟩
    refine ⟨⟨h.enqueue hP hw, grows_enqueue _ d _, Nat.le_of_eq (outstanding_enqueue d _)⟩, rfl,
      .of_untouched rfl, ?_, fun _ _ => rfl⟩
    unfold Linked
    rw [show ((d.enqueue _).element id).data.linkAt l = _ from hl]
    exact List.mem_append_right _ (List.mem_append_right _ (List.mem_singleton.2 rfl))

/-- One link for every item of a list. -/
theorem ensures_links (id : ElementId) (kind : Nat → Link) (hkind : Function.Injective kind)
    (items : List ItemId) {f : ItemId × Nat → Build PUnit} (h : b.Sound P due d)
    (hf : ∀ i x d', items[i]? = some x → b.Sound P due d' → d'.progress = d.progress →
      d.Grows (some id) d' →
      (d'.element id).data.linkAt (kind i) = (d.element id).data.linkAt (kind i) →
      (f (x, i)).Ensures d' fail fun _ d'' => b.LinkStep P due id (kind i) x d' d'') :
    (items.zipIdx.forM f).Ensures d fail fun _ d' =>
      b.Advance P due (some id) items.length d d' ∧ d'.progress = d.progress ∧
        Alike (d.element id) (d'.element id) ∧
        ∀ i x, items[i]? = some x → b.Linked due d' id (kind i) x := by
  let inv (done : List (ItemId × Nat)) (d' : Draft) : Prop :=
    b.Advance P due (some id) done.length d d' ∧ d'.progress = d.progress ∧
      Alike (d.element id) (d'.element id) ∧
      (∀ i x, i < done.length → items[i]? = some x → b.Linked due d' id (kind i) x) ∧
      ∀ i, done.length ≤ i →
        (d'.element id).data.linkAt (kind i) = (d.element id).data.linkAt (kind i)
  refine (ensures_forM inv items.zipIdx
    ⟨.refl h, rfl, .of_untouched rfl, fun i _ hi => absurd hi (Nat.not_lt_zero i), fun _ _ => rfl⟩
    fun done y rest d' hl hinv => ?_).mono fun _ d' hinv => ?_
  · obtain ⟨ha, hp, halike, hdone, hopen⟩ := hinv
    have hy : items.zipIdx[done.length]? = some y := by rw [hl]; simp
    rw [List.getElem?_zipIdx, Option.map_eq_some_iff] at hy
    obtain ⟨x, hx, rfl⟩ := hy
    rw [Nat.zero_add]
    refine (hf done.length x d' hx ha.sound hp ha.grows (hopen _ (Nat.le_refl _))).mono
      fun _ d'' hstep => ?_
    refine ⟨by rw [List.length_append]; exact ha.trans hstep.advance, hstep.progress.trans hp,
      halike.trans hstep.alike, fun i x' hi hx' => ?_, fun i hi => ?_⟩
    · rw [List.length_append, List.length_singleton] at hi
      by_cases hlast : i = done.length
      · subst hlast
        rw [hx] at hx'
        cases hx'
        exact hstep.linked
      · refine (hdone i x' (by omega) hx').mono hstep.advance.grows
          (hstep.others _ fun he => hlast (hkind he))
    · rw [List.length_append, List.length_singleton] at hi
      rw [hstep.others _ fun he => by have := hkind he; omega]
      exact hopen i (by omega)
  · obtain ⟨ha, hp, halike, hdone, _⟩ := hinv
    rw [List.length_zipIdx] at ha
    refine ⟨ha, hp, halike, fun i x hx => hdone i x ?_ hx⟩
    rw [List.length_zipIdx]
    exact (List.getElem?_eq_some_iff.1 hx).1

theorem ensures_ensure (h : b.Sound P due d) {x : ItemId} (hP : P x) :
    (ensure x).Ensures d fail fun _ d' => b.Advance P due none 1 d d' ∧
      ((d'.idOf? x).isSome ∨ .ensure x ∈ due ++ d'.tasks) := by
  refine ensures_modify ?_
  split
  · next hx =>
    refine ⟨(Advance.refl h).le (Nat.zero_le 1), .inl ?_⟩
    obtain ⟨p, hp⟩ := Option.isSome_iff_exists.1 hx
    rw [idOf?_of_progress hp]
    rfl
  · refine ⟨⟨h.enqueue hP (fun _ _ _ he => by cases he), grows_enqueue _ d _,
      Nat.le_of_eq (outstanding_enqueue d _)⟩, .inr ?_⟩
    exact List.mem_append_right _ (List.mem_append_right _ (List.mem_singleton.2 rfl))

end Schemata.Blueprint
