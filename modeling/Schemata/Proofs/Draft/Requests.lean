import Schemata.Proofs.Draft.Objects
import Schemata.Proofs.Tree.Rooted
import Schemata.Proofs.Tree.Skeleton

/-! Asking for the element of an item.

An element that is not there is begun, built and finished; one that is may learn
its parent. Elements are nested no deeper than there are items left, so that the
bound on the depth is never met. -/
namespace Schemata.Blueprint

open Draft Build

variable {b : Blueprint} {P : ItemId → Prop} {due : List Task} {d d' : Draft} {bound : Nat}
  {own : ItemId → ElementId → Build ElementId} {item : ItemId} {id : ElementId}
  {place : TypeInfoId}

/-! ### Any element -/

/-- **What the build of an element guarantees.** -/
theorem ensures_build (hb : b.Closed P) (hown : Owns b P due (b.Fails P) bound own)
    (h : b.Sound P due d) (o : Opened d item id place) (hblank : Blank (d.element id))
    (hv : ∀ p, d.valuePlaces.find? item = some p → Vacant d p) (hP : P item)
    (hroom : (b.tree.item item).kind ≠ none → (b.unbuilt d).length < bound) :
    (b.build own item id place).Ensures d (b.Fails P) fun _ d' => b.Built P due item id d d' := by
  have hleaf : ∀ {data : ElementData (Option ElementId)} {info : TypeInfo},
      (b.tree.item item).kind = some data.kind → isPlain data.kind = true →
      data.kind ≠ .reference ∧ data.kind ≠ .list → (∀ l, data.linkAt l = none) →
      (∀ x ∈ data.named, x.index < d.elements.size) →
      b.Typed d item info → b.Built P due item id d ((d.fill place info).setData id data) := by
    intro data info hk hplain hleaf hlinks hnamed ht
    refine (settle h o hnamed (shaped_plain hblank hk hplain
      (fun l hl => by rw [hlinks l] at hl; cases hl) ht)).leaf o.started (linked?_leaf hk ?_)
    refine ⟨fun hc => ?_, fun hc => ?_, hleaf⟩ <;>
      · rw [hc] at hplain
        cases hplain
  unfold build
  split
  · next hk => exact ensures_throw ⟨item, hP, by simp [fault, hk]⟩
  · next hk => exact ensures_buildFundamental h o hblank hP hk
  · next hk => exact ensures_buildCompound hb hown h o hblank hP hk (hroom (by simp [hk]))
  · next hk => exact ensures_buildSimple hb hown h o hblank hv hP hk (hroom (by simp [hk]))
  · next hk => exact ensures_buildVariant hb hown h o hblank hP hk (hroom (by simp [hk]))
  · next hk => exact ensures_buildReference hb h o hblank hP hk
  · next hk => exact ensures_buildList hb h o hblank hP hk
  all_goals
    next hk =>
    exact ensures_modify (hleaf hk rfl (by simp [ElementData.kind]) (fun l => by cases l <;> rfl)
      (by simp [ElementData.named, ElementData.owned, ElementData.crossing])
      (by unfold Typed; rw [hk]))

theorem kind_none_of_not_mem {t : ItemTree} {x : ItemId} (h : x ∉ t.ids) :
    (t.item x).kind = none := by
  rw [ItemTree.mem_ids, Nat.not_lt] at h
  rw [ItemTree.item_of_size_le h]
  rfl

/-- What beginning the element of an item leaves. -/
structure Started (b : Blueprint) (P : ItemId → Prop) (due : List Task) (item : ItemId)
    (parent : Option ElementId) (d : Draft) (id : ElementId) (place : TypeInfoId) (d' : Draft) :
    Prop where
  fresh : id = d.nextId
  sound : b.Sound P due d'
  grows : d.Grows (some id) d'
  opened : Opened d' item id place
  blank : Blank (d'.element id)
  parent : (d'.element id).parent = parent
  vacant : ∀ p, d'.valuePlaces.find? item = some p → Vacant d' p
  outstanding : item ∈ b.tree.ids → b.outstanding d' + b.weight item = b.outstanding d
  room : item ∈ b.tree.ids → (b.unbuilt d').length + 1 = (b.unbuilt d).length

/-- The element of an item when it is begun. -/
def begunElement (b : Blueprint) (item : ItemId) (parent : Option ElementId) (place : TypeInfoId) :
    Element (Option ElementId) :=
  { name := (b.tree.item item).effectiveName, parent, typeInfo := place,
    isDefinition := (b.tree.item item).role = .definition,
    location := (b.tree.item item).location }

/-- An item that has its place already is begun. -/
theorem started_begun (h : b.Sound P due d) (hn : d.progress.find? item = none) (hP : P item)
    (hp : d.places.find? item = some place) {parent : Option ElementId}
    (hparent : ∀ p, parent = some p → p.index < d.elements.size ∧ item ∈ b.owned (d.itemOf p)) :
    b.Started P due item parent d d.nextId place
      (d.begun item (b.begunElement item parent place)) := by
  have hnone : d.idOf? item = none := by
    unfold idOf?
    rw [hn]
    rfl
  have hs : b.Sound P due (d.begun item (b.begunElement item parent place)) := by
    refine h.begun hn hP hp (fun x hx => ?_) ⟨rfl, rfl, rfl, rfl⟩ fun p hpar => (hparent p hpar).2
    rw [Element.mem_mentioned] at hx
    rcases hx with hx | hx | hx
    · exact (hparent x hx).1
    · cases hx
    · cases hx
  refine ⟨rfl, hs, grows_begun h.indexed hn, ⟨?_, hp, ?_⟩, ?_, ?_, fun p hvp => ?_,
    fun hi => outstanding_begun hn hi _, fun hi => unbuilt_length_begun hn hi _⟩
  · rw [find?_progress_begun, if_pos rfl]
  · cases hget : d.typeInfos.get? place with
    | none => exact hget
    | some info =>
      have := h.indexed.filled item place hp (by rw [hget]; rfl)
      rw [hnone] at this
      cases this
  · rw [element_begun, if_pos rfl]
    exact ⟨rfl, rfl⟩
  · rw [element_begun, if_pos rfl]
    rfl
  · have hvacant : ¬((d.typeInfos.get? p).isSome ∨ (d.narrowings.find? p).isSome) := fun hf => by
      have := h.indexed.valueFilled item p hvp hf
      rw [hnone] at this
      cases this
    rw [not_or, Option.not_isSome_iff_eq_none, Option.not_isSome_iff_eq_none] at hvacant
    exact ⟨hvacant.1, hvacant.2⟩

theorem placeOf_of_some (h : d.places.find? item = some place) :
    placeOf item d = .ok (place, d) := by
  unfold placeOf
  rw [get_bind_run, h]
  rfl

theorem placeOf_of_none (h : d.places.find? item = none) :
    placeOf item d = .ok (d.typeInfos.nextId, d.reserved item) := by
  unfold placeOf
  rw [get_bind_run, h]
  rfl

theorem ensures_start (h : b.Sound P due d) (hn : d.progress.find? item = none) (hP : P item)
    {parent : Option ElementId}
    (hparent : ∀ p, parent = some p → p.index < d.elements.size ∧ item ∈ b.owned (d.itemOf p))
    {fail : Failure → Prop} :
    (b.start item parent).Ensures d fail fun r d' => b.Started P due item parent d r.1 r.2 d' := by
  unfold start
  refine ensures_get_bind (ensures_modify_bind ?_)
  cases hp : d.places.find? item with
  | some place =>
    exact ensures_bind_of_run (placeOf_of_some hp)
      (ensures_modify_bind (ensures_pure (started_begun h hn hP hp hparent)))
  | none =>
    refine ensures_bind_of_run (placeOf_of_none hp) (ensures_modify_bind (ensures_pure ?_))
    have hs := started_begun (h.reserved hP hp) hn hP (OrderedMap.find?_insert_self _ _ _) hparent
    exact ⟨hs.fresh, hs.sound, ((grows_reserved none hp).weaken _).trans hs.grows, hs.opened,
      hs.blank, hs.parent, hs.vacant, hs.outstanding, hs.room⟩

theorem unbuilt_done (hi : d.progress.find? item = some (.started id)) :
    b.unbuilt (d.done item id) = b.unbuilt d := by
  refine List.filter_congr fun x _ => ?_
  rw [find?_progress_done]
  split
  · next hx => rw [hx, hi]; rfl
  · rfl

/-- An element is finished, and with that closed to the others. -/
theorem Built.finish {parent : Option ElementId} {d₁ d₂ : Draft} (h : b.Sound P due d)
    (hs : b.Started P due item parent d id place d₁) (hbuilt : b.Built P due item id d₁ d₂) :
    b.Advance P due none 0 d (d₂.done item id) := by
  have hsound := hbuilt.advance.sound.done hbuilt.started hbuilt.described
  have hmem : item ∈ b.tree.ids := by
    by_contra hn
    obtain ⟨info, _, hshape⟩ := hbuilt.described.shaped
    have hk := hshape.kind
    rw [kind_none_of_not_mem hn] at hk
    cases hk
  refine ⟨hsound, ?_, ?_⟩
  · refine ((hs.grows.trans hbuilt.advance.grows).trans (grows_done hbuilt.started)).close h.indexed
      (by rw [hs.fresh]; exact Nat.le_refl _) fun i p hp he => ?_
    exact (hsound.indexed.progress_unique (p := p) (q := .finished id) hp
      (by rw [find?_progress_done, if_pos rfl]) he)
  · have h₁ := hs.outstanding hmem
    have h₂ := hbuilt.advance.outstanding
    have h₃ : b.outstanding (d₂.done item id) = b.outstanding d₂ := by
      unfold outstanding
      rw [unbuilt_done hbuilt.started]
      rfl
    omega

/-- What asking for the element of an item guarantees. -/
structure Asked (b : Blueprint) (P : ItemId → Prop) (due : List Task) (item : ItemId)
    (parent : Option ElementId) (d : Draft) (id : ElementId) (d' : Draft) : Prop where
  advance : b.Advance P due none 0 d d'
  idOf? : d'.idOf? item = some id
  parent : parent.isSome → (d'.element id).parent.isSome

/-- **The element of an item.** With a bound beyond the number of items that are left, asking for
the element of an item keeps what holds at every step, and fails only at an item that fails by
itself. -/
theorem ensures_elementFor (hb : b.Closed P) (bound : Nat) (item : ItemId)
    (parent : Option ElementId) (d : Draft) (h : b.Sound P due d) (hP : P item)
    (hroom : (b.unbuilt d).length < bound)
    (hparent : ∀ p, parent = some p → p.index < d.elements.size ∧ item ∈ b.owned (d.itemOf p)) :
    (b.elementFor bound item parent).Ensures d (b.Fails P) fun id d' =>
      b.Asked P due item parent d id d' := by
  induction bound generalizing item parent d with
  | zero => exact absurd hroom (Nat.not_lt_zero _)
  | succ bound ih =>
    unfold elementFor
    refine ensures_get_bind ?_
    cases hp : d.progress.find? item with
    | some progress =>
      have hid := idOf?_of_progress hp
      cases parent with
      | none => exact ensures_pure ⟨.refl h, hid, fun hs => by cases hs⟩
      | some p =>
        obtain ⟨hlt, hmem⟩ := hparent p rfl
        have g := grows_adopted none d progress.id p
        refine ensures_modify_bind (ensures_pure ⟨⟨h.adopted hid hlt hmem, g, Nat.le_refl _⟩,
          g.idOf? hid, fun _ => ?_⟩)
        rw [element_modifyElement_self d (h.indexed.lt_of_idOf? hid)]
        rfl
    | none =>
      have hown : Owns b P due (b.Fails P) bound
          fun child owner => b.elementFor bound child (some owner) := by
        intro child owner d₁ h₁ hP₁ hroom₁ hlt hmem
        refine (ih child (some owner) d₁ h₁ hP₁ hroom₁ fun p hp => ?_).mono fun id d₂ hasked =>
          ⟨hasked.advance, hasked.idOf?, hasked.parent rfl⟩
        cases hp
        exact ⟨hlt, hmem⟩
      refine (ensures_start h hp hP hparent).bind fun r d₁ hs => ?_
      obtain ⟨id, place⟩ := r
      refine (ensures_build hb hown hs.sound hs.opened hs.blank hs.vacant hP fun hk => ?_).bind
        fun _ d₂ hbuilt => ?_
      · have hmem : item ∈ b.tree.ids := by
          by_contra hn
          exact hk (kind_none_of_not_mem hn)
        have := hs.room hmem
        omega
      · refine ensures_modify_bind (ensures_pure ⟨hbuilt.finish h hs, ?_, fun hsome => ?_⟩)
        · exact idOf?_of_progress (p := .finished id) (OrderedMap.find?_insert_self _ _ _)
        · refine hbuilt.advance.grows.parent id ?_
          rw [hs.parent]
          exact hsome

end Schemata.Blueprint
