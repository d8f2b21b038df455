import Schemata.Proofs.Draft.Children

/-! Building the elements that are no objects.

Whatever its kind, an element gets the type and the data of its item, and its
links lead where those of the item do (`Built`). A build that fails does so at an
item that fails by itself (`fault`). -/
namespace Schemata.Blueprint

open Draft Build

variable {b : Blueprint} {P : ItemId → Prop} {due : List Task} {d d' : Draft} {bound : Nat}
  {own : ItemId → ElementId → Build ElementId} {item : ItemId} {id : ElementId}
  {place : TypeInfoId}

/-- A failure of one of the items. -/
def Fails (b : Blueprint) (P : ItemId → Prop) (failure : Failure) : Prop :=
  ∃ item, P item ∧ b.fault item = some failure

/-! ### Places in range -/

theorem PlacesOf.lt {items : List ItemId} {places : List TypeInfoId} (h : PlacesOf d items places)
    (hi : d.Indexed) : ∀ q ∈ places, q.index < d.typeInfos.size := fun q hq => by
  obtain ⟨x, _, hx⟩ := exists_of_mem_right h hq
  exact hi.place_lt hx

theorem FieldsOf.lt {named : List (ItemId × String)} {fields : List (String × TypeInfoId)}
    (h : FieldsOf d named fields) (hi : d.Indexed) :
    ∀ q ∈ fields.map Prod.snd, q.index < d.typeInfos.size := fun q hq => by
  obtain ⟨field, hf, rfl⟩ := List.mem_map.1 hq
  obtain ⟨n, _, _, hp⟩ := exists_of_mem_right h hf
  exact hi.place_lt hp

theorem RefersTo.lt {shape : Shape} (h : b.RefersTo d item shape) (hi : d.Indexed) :
    ∀ q ∈ shape.mentioned, q.index < d.typeInfos.size := fun q hq => by
  obtain ⟨target, p, _, hp, rfl⟩ := h
  rw [List.mem_singleton.1 hq]
  exact hi.place_lt hp

/-- A type names places that are there. -/
theorem Typed.lt {info : TypeInfo} (h : b.Typed d item info) (hi : d.Indexed) :
    ∀ q ∈ info.shape.mentioned, q.index < d.typeInfos.size := by
  intro q hq
  unfold Typed at h
  split at h
  · obtain ⟨type, _, rfl⟩ := h
    cases hq
  · obtain ⟨bases, fields, hb, hf, rfl⟩ := h
    rcases List.mem_append.1 hq with hq | hq
    · exact hb.lt hi q hq
    · exact hf.lt hi q (OrderedMap.mem_values_ofList hq)
  · obtain ⟨p, fields, hp, hf, rfl⟩ := h
    rcases List.mem_cons.1 (OrderedMap.mem_values_ofList hq) with hq | hq
    · rw [show q = p from hq]
      exact hi.valuePlace_lt hp
    · exact hf.lt hi q hq
  · obtain ⟨places, hp, rfl⟩ := h
    exact hp.lt hi q hq
  · obtain ⟨shape, rfl, hs⟩ := h
    split at hs
    · subst hs
      cases hq
    · exact hs.lt hi q hq
  · obtain ⟨shape, rfl, hs⟩ := h
    exact hs.lt hi q hq
  · subst h
    cases hq
  · subst h
    cases hq
  · subst h
    cases hq
  · exact h.elim

/-! ### Type and data -/

/-- An element has its type and its data; its links are still open. -/
structure Settled (b : Blueprint) (P : ItemId → Prop) (due : List Task) (item : ItemId)
    (id : ElementId) (data : ElementData (Option ElementId)) (d d' : Draft) : Prop where
  advance : b.Advance P due (some id) 0 d d'
  progress : d'.progress = d.progress
  data : (d'.element id).data = data
  shaped : ∃ info, d'.typeInfos.get? (d'.element id).typeInfo = some info ∧
    b.Shaped due d' item (d'.element id) info

/-- An element gets its type and its data. -/
theorem settle (h : b.Sound P due d) (o : Opened d item id place) {info : TypeInfo}
    {data : ElementData (Option ElementId)}
    (hnamed : ∀ x ∈ data.named, x.index < d.elements.size)
    (hs : b.Shaped due d item { d.element id with data } info) :
    b.Settled P due item id data d ((d.fill place info).setData id data) := by
  have hlt := o.lt h
  have hnarrow : d.narrowings.find? place = none := by
    cases hn : d.narrowings.find? place with
    | none => rfl
    | some n =>
      obtain ⟨_, _, i, hi⟩ := h.indexed.narrowed place n hn
      exact absurd rfl (h.indexed.place_ne_valuePlace o.placed hi)
  have hfill := h.fill o.started (.inl o.placed) o.unfilled hnarrow (hs.typed.lt h.indexed)
  have gfill := grows_fill h.indexed o.started (.inl o.placed) o.unfilled info
  have hdata : b.Advance P due (some id) 0 (d.fill place info)
      ((d.fill place info).setData id data) := by
    refine advance_modifyOwn hfill o.started (keepsHead_data fun _ => data) fun x hx => ?_
    rw [Element.mem_mentioned] at hx
    rcases hx with hx | hx | hx
    · exact h.indexed.mentioned id x ((Element.mem_mentioned _ _).2 (.inl hx))
    · exact h.indexed.mentioned id x ((Element.mem_mentioned _ _).2 (.inr (.inl hx)))
    · exact hnamed x hx
  have helement : ((d.fill place info).setData id data).element id = { d.element id with data } :=
    element_modifyElement_self (d.fill place info) hlt fun e => { e with data }
  have hplace : (d.element id).typeInfo = place := by
    have := h.indexed.place id hlt
    rw [o.itemOf h, o.placed] at this
    exact (Option.some.inj this).symm
  have hadvance : b.Advance P due (some id) 0 d ((d.fill place info).setData id data) :=
    ⟨hdata.sound, gfill.trans hdata.grows, Nat.le_refl _⟩
  refine ⟨hadvance, rfl, by rw [helement], info, ?_, ?_⟩
  · rw [helement]
    show (d.fill place info).typeInfos.get? (d.element id).typeInfo = some info
    rw [hplace]
    exact get?_fill_self info (h.indexed.place_lt o.placed)
  · rw [helement]
    exact hs.mono hadvance.grows ⟨rfl, rfl, rfl, rfl, rfl, rfl, rfl, fun _ => rfl⟩

/-- Nothing has been noted on an element yet. -/
structure Blank (e : Element (Option ElementId)) : Prop where
  extensions : e.extensions = []
  names : e.attributeNames = []

theorem Blank.spared (h : Blank (d.element id)) (hs : d.progress.find? item = some (.started id))
    (g : d.Grows none d') : Blank (d'.element id) := by
  have hu := (g.spared item id (by simp) hs).element
  unfold Untouched at hu
  rw [hu]
  exact ⟨h.extensions, h.names⟩

/-- What the build of an element leaves. -/
structure Built (b : Blueprint) (P : ItemId → Prop) (due : List Task) (item : ItemId)
    (id : ElementId) (d d' : Draft) : Prop where
  advance : b.Advance P due (some id) (b.weight item) d d'
  started : d'.progress.find? item = some (.started id)
  described : b.Described due d' item id

theorem Built.after {d'' : Draft} (h : b.Built P due item id d' d'')
    (ha : b.Advance P due none 0 d d') : b.Built P due item id d d'' :=
  ⟨((ha.weaken _).trans h.advance).le (by omega), h.started, h.described⟩

/-- The elements of some kinds neither own nor name anything by themselves. -/
def isPlain : Kind → Bool
  | .compound | .simple | .variant => false
  | _ => true

theorem shaped_plain {e : Element (Option ElementId)} (hblank : Blank e)
    {data : ElementData (Option ElementId)} {info : TypeInfo}
    (hk : (b.tree.item item).kind = some data.kind) (hplain : isPlain data.kind = true)
    (hlinks : ∀ l, (data.linkAt l).isSome → (b.linked? item l).isSome)
    (ht : b.Typed d item info) : b.Shaped due d item { e with data } info := by
  have hchildren : b.builtChildren item = [] := by
    unfold builtChildren
    rw [hk]
    cases data <;> first | rfl | cases hplain
  have halternatives : b.ownAlternatives item = [] := by
    unfold ownAlternatives
    rw [hk]
    cases data <;> first | rfl | cases hplain
  have hparts : ∀ part, b.parts item part = [] := fun part => by
    unfold parts
    rw [hchildren]
    rfl
  refine ⟨hk, ?_, ?_, ?_, ?_, hlinks, ?_, ht, ?_, ?_⟩
  · rw [hparts, hblank.extensions]
    exact .nil
  · rw [hparts]
    cases data <;> first | exact .nil | cases hplain
  · rw [hparts]
    cases data <;> first | exact .nil | cases hplain
  · rw [hchildren, hblank.names]
    rfl
  · intro c hc
    unfold owned at hc
    rw [hchildren, halternatives] at hc
    cases hc
  · intro hs
    rw [hk] at hs
    cases data <;> first | exact absurd hplain Bool.false_ne_true | cases hs
  · intro name hn
    cases data <;> first | exact absurd hplain Bool.false_ne_true | cases hn

theorem linked?_leaf {k : Kind} (hk : (b.tree.item item).kind = some k)
    (hleaf : k ≠ .compound ∧ k ≠ .variant ∧ k ≠ .reference ∧ k ≠ .list) (l : Link) :
    b.linked? item l = none := by
  unfold linked?
  rw [hk]
  cases k <;> first | rfl | simp_all

theorem Settled.leaf {data : ElementData (Option ElementId)}
    (h : b.Settled P due item id data d d') (hs : d.progress.find? item = some (.started id))
    (hl : ∀ l, b.linked? item l = none) : b.Built P due item id d d' :=
  ⟨h.advance.le (Nat.zero_le _), h.progress ▸ hs, h.shaped,
    fun l x hx => by rw [hl l] at hx; cases hx⟩

/-! ### Kinds without parts -/

theorem ensures_buildFundamental (h : b.Sound P due d) (o : Opened d item id place)
    (hblank : Blank (d.element id)) (hP : P item)
    (hk : (b.tree.item item).kind = some .fundamental) :
    (b.buildFundamental item id place).Ensures d (b.Fails P) fun _ d' =>
      b.Built P due item id d d' := by
  unfold buildFundamental
  split
  · next hnone => exact ensures_throw ⟨item, hP, by simp [fault, hk, hnone]⟩
  · next type htype =>
    refine ensures_modify ?_
    have hs : b.Shaped due d item { d.element id with data := .fundamental type } _ :=
      shaped_plain hblank hk rfl (fun l hl => by cases l <;> cases hl)
        (by unfold Typed; rw [hk]; exact ⟨type, htype, rfl⟩)
    exact (settle h o (by simp [ElementData.named, ElementData.owned, ElementData.crossing])
      hs).leaf o.started (linked?_leaf hk (by simp))

/-- A reference or a list has one link, to what stands for its target. -/
theorem ensures_target (hb : b.Closed P) {data : ElementData (Option ElementId)}
    (h : b.Settled P due item id data d d') (hs : d.progress.find? item = some (.started id))
    (hP : P item) {target : ItemId} (hl : data.linkAt .target = some none)
    (hx : ∀ l, b.linked? item l = if l = .target then some target else none) :
    (b.link id .target target).Ensures d' (b.Fails P) fun _ d'' =>
      b.Built P due item id d d'' := by
  have hs' := h.progress.symm ▸ hs
  have hlinked : b.linked? item .target = some target := by rw [hx, if_pos rfl]
  refine (ensures_link h.advance.sound hs' hlinked
    (hb.linked item hP .target target hlinked) (h.data.symm ▸ hl)).mono fun _ d'' hstep => ?_
  refine ⟨(h.advance.trans hstep.advance).le (by unfold weight; omega), hstep.progress ▸ hs', ?_,
    fun l x hlx => ?_⟩
  · obtain ⟨info, hi, hshape⟩ := h.shaped
    exact ⟨info, by rw [hstep.alike.typeInfo]; exact hstep.advance.grows.filled _ _ hi,
      hshape.mono hstep.advance.grows hstep.alike⟩
  · rw [hx] at hlx
    split at hlx
    · next he =>
      cases hlx
      rw [he]
      exact hstep.linked
    · cases hlx

theorem targetItem_ok {target : ItemId} (h : b.targetItem item = .ok target) :
    (b.tree.item item).target? = some (.item target) := by
  unfold targetItem at h
  split at h
  · next ht =>
    cases h
    exact ht
  · cases h

/-- What stands for the target of an item is asked for with the item. -/
theorem standIn_target (hb : b.Closed P) (hP : P item)
    (hk : (b.tree.item item).kind = some .reference ∨ (b.tree.item item).kind = some .list)
    {target : ItemId} (ht : b.targetItem item = .ok target) : P (b.standIn target) := by
  refine hb.linked item hP .target target ?_
  unfold linked?
  rcases hk with hk | hk <;>
    · rw [hk, targetItem_ok ht]
      rfl

theorem ensures_referenceShape (hb : b.Closed P) (h : b.Sound P due d) (hP : P item)
    (hk : (b.tree.item item).kind = some .reference) {target : ItemId}
    (ht : b.targetItem item = .ok target) :
    (b.referenceShape item target).Ensures d (b.Fails P) fun shape d' =>
      b.Advance P due none 0 d d' ∧
        match b.narrowed? item with
        | some type => shape = .scalar ⟨type, constraintsOf (b.tree.item item).metadata type⟩
        | none => b.RefersTo d' item shape := by
  have hrefers : ∀ {d₀ : Draft}, b.Sound P due d₀ →
      (do return Shape.ref (← placeOf (b.standIn target))).Ensures d₀ (b.Fails P) fun shape d' =>
        b.Advance P due none 0 d₀ d' ∧ b.RefersTo d' item shape := fun hs =>
    (ensures_placeOf hs (standIn_target hb hP (.inl hk) ht)).bind fun q d' hq =>
      ensures_pure ⟨hq.1, target, q, targetItem_ok ht, hq.2, rfl⟩
  unfold referenceShape narrowed?
  cases hend : b.tree.chainEnd item with
  | error failure =>
    exact ensures_throw ⟨item, hP, by simp [fault, hk, ht, hend]⟩
  | ok last =>
    cases last with
    | builtin type => exact hrefers h
    | item last =>
      by_cases hf : (b.tree.item last).kind = some .fundamental
      · cases ha : (b.tree.item item).isAugmenting with
        | false =>
          simp only [hf, if_true]
          cases namedFundamental (b.tree.item last) <;> exact hrefers h
        | true =>
          simp only [hf, if_true, and_self]
          cases namedFundamental (b.tree.item last) with
          | none => exact hrefers h
          | some type => exact ensures_pure ⟨.refl h, rfl⟩
      · simp only [hf, if_false, false_and]
        exact hrefers h

theorem ensures_buildReference (hb : b.Closed P) (h : b.Sound P due d)
    (o : Opened d item id place) (hblank : Blank (d.element id)) (hP : P item)
    (hk : (b.tree.item item).kind = some .reference) :
    (b.buildReference item id place).Ensures d (b.Fails P) fun _ d' =>
      b.Built P due item id d d' := by
  unfold buildReference
  refine ensures_lift_bind (fun target ht => ?_) fun failure hf =>
    ⟨item, hP, by simp [fault, hk, hf]⟩
  refine (ensures_referenceShape hb h hP hk ht).bind fun shape d₁ hstep => ?_
  obtain ⟨ha, hshape⟩ := hstep
  have o₁ := o.spared ha.grows
  have hblank₁ := hblank.spared o.started ha.grows
  have hlinked : ∀ l, b.linked? item l = if l = .target then some target else none := fun l => by
    unfold linked?
    rw [hk, targetItem_ok ht]
    cases l <;> rfl
  have hs : b.Shaped due d₁ item { d₁.element id with data := .reference none }
      ⟨b.arityOf item, shape⟩ :=
    shaped_plain hblank₁ hk rfl (fun l hl => by rw [hlinked]; cases l <;> first | rfl | cases hl)
      (by unfold Typed; rw [hk]; exact ⟨shape, rfl, hshape⟩)
  have hsettled := settle ha.sound o₁
    (by simp [ElementData.named, ElementData.owned, ElementData.crossing]) hs
  exact ensures_modify_bind ((ensures_target hb hsettled o₁.started hP rfl hlinked).mono
    fun _ d₂ hbuilt => hbuilt.after ha)

theorem ensures_buildList (hb : b.Closed P) (h : b.Sound P due d) (o : Opened d item id place)
    (hblank : Blank (d.element id)) (hP : P item) (hk : (b.tree.item item).kind = some .list) :
    (b.buildList item id place).Ensures d (b.Fails P) fun _ d' =>
      b.Built P due item id d d' := by
  unfold buildList
  refine ensures_lift_bind (fun target ht => ?_) fun failure hf =>
    ⟨item, hP, by simp [fault, hk, hf]⟩
  refine (ensures_placeOf h (standIn_target hb hP (.inr hk) ht)).bind fun q d₁ hstep => ?_
  obtain ⟨ha, hq⟩ := hstep
  have o₁ := o.spared ha.grows
  have hblank₁ := hblank.spared o.started ha.grows
  have hlinked : ∀ l, b.linked? item l = if l = .target then some target else none := fun l => by
    unfold linked?
    rw [hk, targetItem_ok ht]
    cases l <;> rfl
  have hs : b.Shaped due d₁ item { d₁.element id with data := .list none }
      ⟨b.arityOf item, .ref q⟩ :=
    shaped_plain hblank₁ hk rfl (fun l hl => by rw [hlinked]; cases l <;> first | rfl | cases hl)
      (by unfold Typed; rw [hk]; exact ⟨_, rfl, target, q, targetItem_ok ht, hq, rfl⟩)
  have hsettled := settle ha.sound o₁
    (by simp [ElementData.named, ElementData.owned, ElementData.crossing]) hs
  exact ensures_modify_bind ((ensures_target hb hsettled o₁.started hP rfl hlinked).mono
    fun _ d₂ hbuilt => hbuilt.after ha)

/-! ### Variants -/

/-- What the alternatives that are done have become. -/
structure Varied (b : Blueprint) (d : Draft) (done : List ItemId)
    (variations : List (TypeInfoId × Option ElementId)) : Prop where
  places : PlacesOf d (done.map b.standIn) (variations.map Prod.fst)
  elements : List.Forall₂ (fun a (id : Option ElementId) =>
    if b.standIn a = a then ∃ e, id = some e ∧ d.idOf? a = some e ∧ (d.element e).parent.isSome
    else id = none) done (variations.map Prod.snd)

theorem Varied.mono {done : List ItemId} {variations : List (TypeInfoId × Option ElementId)}
    (h : b.Varied d done variations) {mine : Option ElementId} (g : d.Grows mine d') :
    b.Varied d' done variations where
  places := h.places.mono g
  elements := h.elements.imp fun a id hid => by
    split at hid
    · obtain ⟨e, rfl, he, hp⟩ := hid
      rw [if_pos ‹_›]
      exact ⟨e, rfl, g.idOf? he, g.parent e hp⟩
    · rw [if_neg ‹_›]
      exact hid

theorem mem_owned_of_alternative (hk : (b.tree.item item).kind = some .variant) {a : ItemId}
    (ha : a ∈ (b.tree.item item).alternatives) (hs : b.standIn a = a) : a ∈ b.owned item := by
  refine List.mem_append_right _ ?_
  unfold ownAlternatives
  rw [hk]
  exact List.mem_filter.2 ⟨ha, by simpa using hs⟩

theorem ensures_variations (hb : b.Closed P) (hown : Owns b P due (b.Fails P) bound own)
    (h : b.Sound P due d) (o : Opened d item id place) (hblank : Blank (d.element id))
    (hP : P item) (hk : (b.tree.item item).kind = some .variant)
    (hroom : (b.unbuilt d).length < bound) :
    ((b.tree.item item).alternatives.mapM (b.addVariation own id)).Ensures d (b.Fails P)
      fun variations d' => b.Advance P due none 0 d d' ∧ Opened d' item id place ∧
        Blank (d'.element id) ∧ b.Varied d' (b.tree.item item).alternatives variations := by
  refine ensures_mapM (fun done variations d' => b.Advance P due none 0 d d' ∧
    Opened d' item id place ∧ Blank (d'.element id) ∧ b.Varied d' done variations)
    (b.tree.item item).alternatives ⟨.refl h, o, hblank, .nil, .nil⟩
    fun done a rest variations d₁ hl hinv => ?_
  obtain ⟨ha, o₁, hblank₁, hvaried⟩ := hinv
  have hmem : a ∈ (b.tree.item item).alternatives := by rw [hl]; simp
  have hPs : P (b.standIn a) := by
    obtain ⟨i, hi⟩ := List.mem_iff_getElem?.1 hmem
    refine hb.linked item hP (.variation i) a ?_
    unfold linked?
    rw [hk]
    exact hi
  unfold addVariation
  refine (ensures_placeOf ha.sound hPs).bind fun q d₂ hstep => ?_
  obtain ⟨ha₂, hq⟩ := hstep
  have o₂ := o₁.spared ha₂.grows
  have hblank₂ := hblank₁.spared o₁.started ha₂.grows
  split
  · next hs =>
    have howned := mem_owned_of_alternative hk hmem hs
    refine (hown a id d₂ ha₂.sound (hb.owned item hP a howned) ?_
      (o₂.lt ha₂.sound) (o₂.itemOf ha₂.sound ▸ howned)).bind
      fun e d₃ hstep => ?_
    · exact Nat.lt_of_le_of_lt (unbuilt_length_le (ha.grows.trans ha₂.grows)) hroom
    · obtain ⟨ha₃, he, hparent⟩ := hstep
      have hvaried₃ := hvaried.mono (ha₂.grows.trans ha₃.grows)
      refine ensures_pure ⟨(ha.trans ha₂).trans ha₃, o₂.spared ha₃.grows,
        hblank₂.spared o₂.started ha₃.grows, ?_, ?_⟩
      · rw [List.map_append, List.map_append]
        exact List.rel_append hvaried₃.places (.cons (ha₃.grows.places _ _ hq) .nil)
      · rw [List.map_append]
        exact List.rel_append hvaried₃.elements
          (.cons (by rw [if_pos hs]; exact ⟨e, rfl, he, hparent⟩) .nil)
  · next hs =>
    have hvaried₂ := hvaried.mono ha₂.grows
    refine ensures_pure ⟨ha.trans ha₂, o₂, hblank₂, ?_, ?_⟩
    · rw [List.map_append, List.map_append]
      exact List.rel_append hvaried₂.places (.cons hq .nil)
    · rw [List.map_append]
      exact List.rel_append hvaried₂.elements (.cons (by rw [if_neg hs]) .nil)

/-- The alternatives of a variant that are elements of its own are there. -/
theorem Varied.element {alternatives : List ItemId}
    {variations : List (TypeInfoId × Option ElementId)} (h : b.Varied d alternatives variations)
    {i : Nat} {a : ItemId} (ha : alternatives[i]? = some a) :
    (b.standIn a = a ∧ ∃ e, (variations.map Prod.snd)[i]? = some (some e) ∧
      d.idOf? a = some e ∧ (d.element e).parent.isSome) ∨
    (b.standIn a ≠ a ∧ (variations.map Prod.snd)[i]? = some none) := by
  obtain ⟨hi, hget⟩ := List.getElem?_eq_some_iff.1 ha
  have hlen := h.elements.length_eq
  have hr := (List.forall₂_iff_get.1 h.elements).2 i hi (hlen ▸ hi)
  have hgets : (variations.map Prod.snd)[i]? =
      some ((variations.map Prod.snd).get ⟨i, hlen ▸ hi⟩) := List.getElem?_eq_getElem _
  rw [List.get_eq_getElem, hget] at hr
  rw [hgets]
  split at hr
  · next hs =>
    obtain ⟨e, he, hid, hp⟩ := hr
    exact .inl ⟨hs, e, congrArg some he, hid, hp⟩
  · next hs => exact .inr ⟨hs, congrArg some hr⟩

theorem shaped_variant {e : Element (Option ElementId)} (hblank : Blank e)
    (hk : (b.tree.item item).kind = some .variant)
    {variations : List (TypeInfoId × Option ElementId)}
    (hv : b.Varied d (b.tree.item item).alternatives variations) :
    b.Shaped due d item { e with data := .variant (variations.map Prod.snd) }
      ⟨b.arityOf item, .anyOf (variations.map Prod.fst)⟩ := by
  have hchildren : b.builtChildren item = [] := by
    unfold builtChildren
    rw [hk]
  have hparts : ∀ part, b.parts item part = [] := fun part => by
    unfold parts
    rw [hchildren]
    rfl
  refine ⟨hk, ?_, ?_, ?_, ?_, fun l hl => ?_, fun c hc => ?_, ?_, fun hs => ?_,
    fun name hn => by cases hn⟩
  · rw [hparts, hblank.extensions]
    exact .nil
  · rw [hparts]
    exact .nil
  · rw [hparts]
    exact .nil
  · rw [hchildren, hblank.names]
    rfl
  · unfold linked?
    rw [hk]
    cases l with
    | variation i =>
      obtain ⟨x, hx⟩ := Option.isSome_iff_exists.1 hl
      obtain ⟨hi, _⟩ := List.getElem?_eq_some_iff.1 hx
      rw [← hv.elements.length_eq] at hi
      exact Option.isSome_iff_exists.2 ⟨_, List.getElem?_eq_getElem hi⟩
    | base i => cases hl
    | target => cases hl
  · unfold owned ownAlternatives at hc
    rw [hchildren, hk] at hc
    obtain ⟨hmem, hs⟩ := List.mem_filter.1 hc
    obtain ⟨i, hi⟩ := List.mem_iff_getElem?.1 hmem
    rcases hv.element hi with ⟨_, id, _, hid⟩ | ⟨hne, _⟩
    · exact ⟨id, hid⟩
    · exact absurd (by simpa using hs) hne
  · unfold Typed
    rw [hk]
    exact ⟨_, hv.places, rfl⟩
  · rw [hk] at hs
    cases hs

theorem ensures_buildVariant (hb : b.Closed P) (hown : Owns b P due (b.Fails P) bound own)
    (h : b.Sound P due d) (o : Opened d item id place) (hblank : Blank (d.element id))
    (hP : P item) (hk : (b.tree.item item).kind = some .variant)
    (hroom : (b.unbuilt d).length < bound) :
    (b.buildVariant own item id place).Ensures d (b.Fails P) fun _ d' =>
      b.Built P due item id d d' := by
  unfold buildVariant
  refine (ensures_variations hb hown h o hblank hP hk hroom).bind fun variations d₁ hstep => ?_
  obtain ⟨ha, o₁, hblank₁, hv⟩ := hstep
  have hlinked : ∀ i a, (b.tree.item item).alternatives[i]? = some a →
      b.linked? item (.variation i) = some a := fun i a hi => by
    unfold linked?
    rw [hk]
    exact hi
  have hsettled := settle ha.sound o₁ (fun x hx => by
    simp only [ElementData.named, ElementData.owned, ElementData.crossing, List.append_nil,
      List.mem_filterMap, exists_eq_right] at hx
    obtain ⟨a, _, hr⟩ := exists_of_mem_right hv.elements hx
    split at hr
    · obtain ⟨e, he, hid, _⟩ := hr
      cases he
      exact ha.sound.indexed.lt_of_idOf? hid
    · cases hr) (shaped_variant hblank₁ hk hv)
  have hs := hsettled.progress.symm ▸ o₁.started
  refine ensures_modify_bind ((ensures_links id .variation (fun _ _ he => by cases he; rfl)
    (b.tree.item item).alternatives hsettled.advance.sound fun i a d₂ hi h₂ hp₂ g₂ hl => ?_).mono
    fun _ d₂ hstep => ?_)
  · rw [hsettled.data] at hl
    rcases hv.element hi with ⟨hself, e, he, hid, _⟩ | ⟨hother, he⟩
    · show (if b.standIn a = a then pure ()
        else b.link id (.variation i) a : Build Unit).Ensures _ _ _
      rw [if_pos hself]
      refine ensures_pure (.skip h₂ ?_)
      unfold Linked
      rw [hl, show (ElementData.variant _).linkAt (.variation i) = some (some e) from he, hself]
      exact g₂.idOf? (hsettled.advance.grows.idOf? hid)
    · show (if b.standIn a = a then pure ()
        else b.link id (.variation i) a : Build Unit).Ensures _ _ _
      rw [if_neg hother]
      exact ensures_link h₂ (hp₂ ▸ hs) (hlinked i a hi)
        (hb.linked item hP _ a (hlinked i a hi)) (hl.trans he)
  · obtain ⟨ha₂, hp₂, halike, hlinks⟩ := hstep
    refine ⟨(((ha.weaken _).trans hsettled.advance).trans ha₂).le (by unfold weight; omega),
      hp₂ ▸ hs, ?_, fun l x hx => ?_⟩
    · obtain ⟨info, hi, hshape⟩ := hsettled.shaped
      exact ⟨info, by rw [halike.typeInfo]; exact ha₂.grows.filled _ _ hi,
        hshape.mono ha₂.grows halike⟩
    · unfold linked? at hx
      rw [hk] at hx
      cases l with
      | variation i => exact hlinks i x hx
      | base i => cases hx
      | target => cases hx

end Schemata.Blueprint
