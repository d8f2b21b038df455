import Schemata.Proofs.Draft.Advance

/-! Building the children of an object.

Each child that gets an element is built for its owner and noted as the part that
it is: among the extensions, the definitions or the members, and a member that has
a name gets a field. `Collected` says what has been gathered from the children
that are done. -/
namespace Schemata.Blueprint

open Draft Build

variable {b : Blueprint} {P : ItemId → Prop} {due : List Task} {d d' : Draft}
  {fail : Failure → Prop} {bound : Nat} {own : ItemId → ElementId → Build ElementId}

/-- What is asked of the step that builds the element of an item for its owner, as long as fewer
than `bound` items are left. -/
def Owns (b : Blueprint) (P : ItemId → Prop) (due : List Task) (fail : Failure → Prop) (bound : Nat)
    (own : ItemId → ElementId → Build ElementId) : Prop :=
  ∀ child owner d, b.Sound P due d → P child → (b.unbuilt d).length < bound →
    owner.index < d.elements.size → child ∈ b.owned (d.itemOf owner) →
    (own child owner).Ensures d fail fun id d' => b.Advance P due none 0 d d' ∧
      d'.idOf? child = some id ∧ (d'.element id).parent.isSome

/-! ### One child more -/

section Concat

variable (item c : ItemId) (done : List ItemId)

theorem among_concat (part : Part) : b.among item part (done ++ [c]) =
    b.among item part done ++ if b.part? item c = some part then [c] else [] := by
  unfold among
  rw [List.filter_append]
  by_cases h : b.part? item c = some part <;> simp [h]

theorem named_concat : b.named item (done ++ [c]) = b.named item done ++
    if b.part? item c = some .member then
      (((b.tree.item c).effectiveName).map fun name => (c, name)).toList
    else [] := by
  unfold named
  rw [among_concat, List.filterMap_append]
  split
  · cases h : (b.tree.item c).effectiveName <;> simp [h]
  · rfl

theorem listedNames_concat : b.listedNames item (done ++ [c]) = b.listedNames item done ++
    if b.part? item c = some .member ∧ b.isListed item c then
      ((b.tree.item c).effectiveName).toList
    else [] := by
  unfold listedNames
  rw [among_concat, List.filter_append, List.filterMap_append]
  by_cases hm : b.part? item c = some .member
  · by_cases hl : b.isListed item c
    · cases h : (b.tree.item c).effectiveName <;> simp [hm, hl, h]
    · simp [hm, hl]
  · simp [hm]

end Concat

theorem ElementsOf.concat {items : List ItemId} {ids : List ElementId} (h : ElementsOf d items ids)
    {c : ItemId} {id : ElementId} (hc : d.idOf? c = some id) :
    ElementsOf d (items ++ [c]) (ids ++ [id]) := List.rel_append h (.cons hc .nil)

/-! ### What has been gathered -/

/-- From the children that are done, all that there is has been gathered. -/
structure Collected (b : Blueprint) (item : ItemId) (id : ElementId)
    (start : OrderedMap String TypeInfoId) (done : List ItemId) (parts : Parts) (d : Draft) :
    Prop where
  extensions : ElementsOf d (b.among item .extension done) (d.element id).extensions
  definitions : ElementsOf d (b.among item .definition done) parts.definitions
  members : ElementsOf d (b.among item .member done) parts.children
  fields : ∃ fields, FieldsOf d (b.named item done) fields ∧ parts.fields = start.insertAll fields
  names : (d.element id).attributeNames = b.listedNames item done
  owned : ∀ c ∈ done, (b.part? item c).isSome →
    ∃ e, d.idOf? c = some e ∧ (d.element e).parent.isSome

variable {item : ItemId} {id : ElementId} {start : OrderedMap String TypeInfoId}
  {done : List ItemId} {parts : Parts}

theorem Collected.mono (h : b.Collected item id start done parts d) {mine : Option ElementId}
    (g : d.Grows mine d') (he : (d'.element id).extensions = (d.element id).extensions)
    (hn : (d'.element id).attributeNames = (d.element id).attributeNames) :
    b.Collected item id start done parts d' where
  extensions := he ▸ h.extensions.mono g
  definitions := h.definitions.mono g
  members := h.members.mono g
  fields := by
    obtain ⟨fields, hf, hp⟩ := h.fields
    exact ⟨fields, hf.mono g, hp⟩
  names := hn.trans h.names
  owned c hc hp := by
    obtain ⟨e, hid, hparent⟩ := h.owned c hc hp
    exact ⟨e, g.idOf? hid, g.parent e hparent⟩

/-- What others build leaves what has been gathered for an element that is being built. -/
theorem Collected.spared (h : b.Collected item id start done parts d)
    (hs : d.progress.find? item = some (.started id)) (g : d.Grows none d') :
    b.Collected item id start done parts d' := by
  have hu := (g.spared item id (by simp) hs).element
  unfold Untouched at hu
  exact h.mono g (by rw [hu]) (by rw [hu])

theorem owned_concat {c : ItemId}
    (h : ∀ c ∈ done, (b.part? item c).isSome →
      ∃ e, d.idOf? c = some e ∧ (d.element e).parent.isSome)
    (hc : (b.part? item c).isSome → ∃ e, d.idOf? c = some e ∧ (d.element e).parent.isSome) :
    ∀ x ∈ done ++ [c], (b.part? item x).isSome →
      ∃ e, d.idOf? x = some e ∧ (d.element e).parent.isSome := by
  intro x hx hp
  rcases List.mem_append.1 hx with hx | hx
  · exact h x hx hp
  · rw [List.mem_singleton.1 hx] at hp ⊢
    exact hc hp

section Extend

variable {c : ItemId} {e : ElementId}

/-- A child that is no part. -/
theorem Collected.skip (h : b.Collected item id start done parts d) (hp : b.part? item c = none) :
    b.Collected item id start (done ++ [c]) parts d where
  extensions := by simpa [among_concat, hp] using h.extensions
  definitions := by simpa [among_concat, hp] using h.definitions
  members := by simpa [among_concat, hp] using h.members
  fields := by simpa [named_concat, hp] using h.fields
  names := by simpa [listedNames_concat, hp] using h.names
  owned := owned_concat h.owned fun hs => by rw [hp] at hs; cases hs

theorem Collected.definition (h : b.Collected item id start done parts d)
    (hp : b.part? item c = some .definition) (he : d.idOf? c = some e)
    (hparent : (d.element e).parent.isSome) :
    b.Collected item id start (done ++ [c]) { parts with definitions := parts.definitions ++ [e] }
      d where
  extensions := by simpa [among_concat, hp] using h.extensions
  definitions := by simpa [among_concat, hp] using h.definitions.concat he
  members := by simpa [among_concat, hp] using h.members
  fields := by simpa [named_concat, hp] using h.fields
  names := by simpa [listedNames_concat, hp] using h.names
  owned := owned_concat h.owned fun _ => ⟨e, he, hparent⟩

/-- The extension is among those of the element already, but not among what has been gathered. -/
theorem Collected.extension (h : b.Collected item id start done parts d)
    (hp : b.part? item c = some .extension) (he : d.idOf? c = some e)
    (hparent : (d.element e).parent.isSome) {mine : Option ElementId} (g : d.Grows mine d')
    (hext : (d'.element id).extensions = (d.element id).extensions ++ [e])
    (hnames : (d'.element id).attributeNames = (d.element id).attributeNames) :
    b.Collected item id start (done ++ [c]) parts d' where
  extensions := by
    rw [hext]
    simpa [among_concat, hp] using (h.extensions.mono g).concat (g.idOf? he)
  definitions := by simpa [among_concat, hp] using h.definitions.mono g
  members := by simpa [among_concat, hp] using h.members.mono g
  fields := by
    obtain ⟨fields, hf, hfields⟩ := h.fields
    exact ⟨fields, by simpa [named_concat, hp] using hf.mono g, hfields⟩
  names := by
    rw [hnames]
    simpa [listedNames_concat, hp] using h.names
  owned := by
    refine owned_concat (fun x hx hs => ?_) fun _ => ⟨e, g.idOf? he, g.parent e hparent⟩
    obtain ⟨e', he', hp'⟩ := h.owned x hx hs
    exact ⟨e', g.idOf? he', g.parent e' hp'⟩

theorem Collected.anonymous (h : b.Collected item id start done parts d)
    (hp : b.part? item c = some .member) (hname : (b.tree.item c).effectiveName = none)
    (he : d.idOf? c = some e) (hparent : (d.element e).parent.isSome) :
    b.Collected item id start (done ++ [c]) { parts with children := parts.children ++ [e] } d where
  extensions := by simpa [among_concat, hp] using h.extensions
  definitions := by simpa [among_concat, hp] using h.definitions
  members := by simpa [among_concat, hp] using h.members.concat he
  fields := by simpa [named_concat, hp, hname] using h.fields
  names := by simpa [listedNames_concat, hp, hname] using h.names
  owned := owned_concat h.owned fun _ => ⟨e, he, hparent⟩

/-- The name is among those of the element already, if it is listed. -/
theorem Collected.member (h : b.Collected item id start done parts d)
    (hp : b.part? item c = some .member) {name : String}
    (hname : (b.tree.item c).effectiveName = some name) (he : d.idOf? c = some e)
    (hparent : (d.element e).parent.isSome) {place : TypeInfoId} {mine : Option ElementId}
    (hplace : d.places.find? c = some place) (g : d.Grows mine d')
    (hext : (d'.element id).extensions = (d.element id).extensions)
    (hnames : (d'.element id).attributeNames =
      (d.element id).attributeNames ++ if b.isListed item c then [name] else []) :
    b.Collected item id start (done ++ [c])
      { parts with children := parts.children ++ [e], fields := parts.fields.insert name place }
      d' where
  extensions := by
    rw [hext]
    simpa [among_concat, hp] using h.extensions.mono g
  definitions := by simpa [among_concat, hp] using h.definitions.mono g
  members := by simpa [among_concat, hp] using (h.members.mono g).concat (g.idOf? he)
  fields := by
    obtain ⟨fields, hf, hfields⟩ := h.fields
    refine ⟨fields ++ [(name, place)], ?_, ?_⟩
    · rw [named_concat, if_pos hp, hname]
      exact List.rel_append (hf.mono g) (.cons ⟨rfl, g.places _ _ hplace⟩ .nil)
    · rw [OrderedMap.insertAll_concat, hfields]
  names := by
    rw [hnames, h.names, listedNames_concat]
    by_cases hl : b.isListed item c <;> simp [hp, hl, hname]
  owned := by
    refine owned_concat (fun x hx hs => ?_) fun _ => ⟨e, g.idOf? he, g.parent e hparent⟩
    obtain ⟨e', he', hp'⟩ := h.owned x hx hs
    exact ⟨e', g.idOf? he', g.parent e' hp'⟩

end Extend

/-! ### The steps -/

/-- A part is noted on the element that is being built. -/
theorem advance_modifyOwn (h : b.Sound P due d) (hs : d.progress.find? item = some (.started id))
    {f : Element (Option ElementId) → Element (Option ElementId)} (hf : KeepsHead f)
    (hm : ∀ x ∈ (f (d.element id)).mentioned, x.index < d.elements.size) :
    b.Advance P due (some id) 0 d (d.modifyElement id f) :=
  ⟨h.modifyOwn hs hf hm, grows_modifyElement hf fun _ _ => rfl, Nat.le_refl _⟩

/-- The element of an item is being built, and its type is not known yet. -/
structure Opened (d : Draft) (item : ItemId) (id : ElementId) (place : TypeInfoId) : Prop where
  started : d.progress.find? item = some (.started id)
  placed : d.places.find? item = some place
  unfilled : d.typeInfos.get? place = none

theorem Opened.spared {place : TypeInfoId} (o : Opened d item id place) (g : d.Grows none d') :
    Opened d' item id place where
  started := g.started (by simp) o.started
  placed := g.places _ _ o.placed
  unfilled := ((g.spared item id (by simp) o.started).place place o.placed).trans o.unfilled

theorem Opened.lt {place : TypeInfoId} (o : Opened d item id place) (h : b.Sound P due d) :
    id.index < d.elements.size := (h.indexed.progress item _ o.started).1

theorem Opened.itemOf {place : TypeInfoId} (o : Opened d item id place) (h : b.Sound P due d) :
    d.itemOf id = item := (h.indexed.progress item _ o.started).2

/-- What gathering leaves once some children are done. -/
structure Gathered (b : Blueprint) (P : ItemId → Prop) (due : List Task) (item : ItemId)
    (id : ElementId) (place : TypeInfoId) (start : OrderedMap String TypeInfoId)
    (done : List ItemId) (parts : Parts) (d d' : Draft) : Prop where
  advance : b.Advance P due (some id) 0 d d'
  opened : Opened d' item id place
  collected : b.Collected item id start done parts d'

variable {place : TypeInfoId} {c : ItemId}

theorem Gathered.then {d'' : Draft} {done' : List ItemId} {parts' : Parts}
    (h : b.Gathered P due item id place start done parts d d')
    (h' : b.Gathered P due item id place start done' parts' d' d'') :
    b.Gathered P due item id place start done' parts' d d'' :=
  ⟨h.advance.trans h'.advance, h'.opened, h'.collected⟩

theorem ensures_addChild (hown : Owns b P due fail bound own) (h : b.Sound P due d)
    (o : Opened d item id place) (hc : b.Collected item id start done parts d) (hP : P c)
    (hroom : (b.unbuilt d).length < bound) (hmem : c ∈ b.owned item)
    (hpart : b.part? item c =
      some (if (b.tree.item c).isExtension then .extension else .member))
    {listed : Item → Bool} (hlisted : listed (b.tree.item c) = b.isListed item c) :
    (b.addChild own id listed parts c).Ensures d fail fun parts' d' =>
      b.Gathered P due item id place start (done ++ [c]) parts' d d' := by
  unfold addChild
  refine (hown c id d h hP hroom (o.lt h) (o.itemOf h ▸ hmem)).bind fun e d₁ hstep => ?_
  obtain ⟨ha, he, hparent⟩ := hstep
  have o₁ := o.spared ha.grows
  have hc₁ := hc.spared o.started ha.grows
  have hmentioned := ha.sound.indexed.mentioned id
  split
  · next hext =>
    rw [if_pos hext] at hpart
    have hm := advance_modifyOwn (f := fun x => { x with extensions := x.extensions ++ [e] })
      ha.sound o₁.started ⟨fun _ => rfl, fun _ => rfl, fun _ => rfl, fun _ => rfl, fun _ => rfl,
        fun _ => rfl⟩
      (fun x hx => by
        rw [Element.mem_mentioned] at hx
        rcases hx with hx | hx | hx
        · exact hmentioned x ((Element.mem_mentioned _ _).2 (.inl hx))
        · rcases List.mem_append.1 hx with hx | hx
          · exact hmentioned x ((Element.mem_mentioned _ _).2 (.inr (.inl hx)))
          · rw [List.mem_singleton.1 hx]
            exact ha.sound.indexed.lt_of_idOf? he
        · exact hmentioned x ((Element.mem_mentioned _ _).2 (.inr (.inr hx))))
    have helement := element_modifyElement_self d₁ (o₁.lt ha.sound) fun x =>
      { x with extensions := x.extensions ++ [e] }
    refine ensures_modify_bind (ensures_pure ⟨(ha.weaken _).trans hm,
      ⟨o₁.started, o₁.placed, o₁.unfilled⟩, hc₁.extension hpart he hparent hm.grows ?_ ?_⟩)
    · rw [helement]
    · rw [helement]
  · next hext =>
    rw [if_neg hext] at hpart
    split
    · next hname =>
      exact ensures_pure ⟨ha.weaken _, o₁, hc₁.anonymous hpart hname he hparent⟩
    · next name hname =>
      refine (ensures_placeOf ha.sound hP).bind fun q d₂ hstep => ?_
      obtain ⟨ha₂, hq⟩ := hstep
      have o₂ := o₁.spared ha₂.grows
      have hc₂ := hc₁.spared o₁.started ha₂.grows
      have he₂ := ha₂.grows.idOf? he
      have hparent₂ := ha₂.grows.parent e hparent
      split
      · next hl =>
        have hm := advance_modifyOwn
          (f := fun x => { x with attributeNames := x.attributeNames ++ [name] }) ha₂.sound
          o₂.started ⟨fun _ => rfl, fun _ => rfl, fun _ => rfl, fun _ => rfl, fun _ => rfl,
            fun _ => rfl⟩
          fun x hx => ha₂.sound.indexed.mentioned id x hx
        have helement := element_modifyElement_self d₂ (o₂.lt ha₂.sound) fun x =>
          { x with attributeNames := x.attributeNames ++ [name] }
        refine ensures_modify_bind (ensures_pure ⟨((ha.weaken _).trans (ha₂.weaken _)).trans hm,
          ⟨o₂.started, o₂.placed, o₂.unfilled⟩,
          hc₂.member hpart hname he₂ hparent₂ hq hm.grows ?_ ?_⟩)
        · rw [helement]
        · rw [helement, ← hlisted, if_pos hl]
      · next hl =>
        refine ensures_pure ⟨(ha.weaken _).trans (ha₂.weaken _), o₂,
          hc₂.member hpart hname he₂ hparent₂ hq (.refl none _) rfl ?_⟩
        rw [← hlisted, if_neg hl, List.append_nil]

theorem mem_owned (hc : c ∈ b.builtChildren item) (hp : (b.part? item c).isSome) :
    c ∈ b.owned item :=
  List.mem_append_left _ (List.mem_filter.2 ⟨hc, hp⟩)

theorem ensures_addCompoundChild (hown : Owns b P due fail bound own) (h : b.Sound P due d)
    (o : Opened d item id place) (hc : b.Collected item id start done parts d)
    (hP : ∀ x ∈ b.owned item, P x) (hroom : (b.unbuilt d).length < bound)
    (hk : (b.tree.item item).kind = some .compound) (hmem : c ∈ (b.tree.item item).children) :
    (b.addCompoundChild own id parts c).Ensures d fail fun parts' d' =>
      b.Gathered P due item id place start (done ++ [c]) parts' d d' := by
  have hbuilt : c ∈ b.builtChildren item := by
    unfold builtChildren
    rw [hk]
    exact hmem
  unfold addCompoundChild
  dsimp only
  split
  · next hi =>
    exact ensures_pure ⟨.refl h, o, hc.skip (by simp [part?, hi])⟩
  · next hi =>
    split
    · next hdef =>
      rw [Bool.and_eq_true, decide_eq_true_eq, Bool.not_eq_true'] at hdef
      have hpart : b.part? item c = some .definition := by simp [part?, hi, hk, hdef]
      have howned := mem_owned hbuilt (by rw [hpart]; rfl)
      refine (hown c id d h (hP c howned) hroom (o.lt h) (o.itemOf h ▸ howned)).bind
        fun e d₁ hstep => ?_
      obtain ⟨ha, he, hparent⟩ := hstep
      exact ensures_pure ⟨ha.weaken _, o.spared ha.grows,
        (hc.spared o.started ha.grows).definition hpart he hparent⟩
    · next hdef =>
      have hpart : b.part? item c =
          some (if (b.tree.item c).isExtension then .extension else .member) := by
        by_cases hext : (b.tree.item c).isExtension
        · simp [part?, hi, hk, hext]
        · have hrole : (b.tree.item c).role ≠ .definition := fun hr => hdef (by simp [hr, hext])
          simp [part?, hi, hk, hext, hrole]
      have howned := mem_owned hbuilt (by rw [hpart]; rfl)
      exact ensures_addChild hown h o hc (hP c howned) hroom howned hpart (by simp [isListed, hk])

theorem ensures_addSimpleChild (hown : Owns b P due fail bound own) (h : b.Sound P due d)
    (o : Opened d item id place) (hc : b.Collected item id start done parts d)
    (hP : ∀ x ∈ b.owned item, P x) (hroom : (b.unbuilt d).length < bound)
    (hk : (b.tree.item item).kind = some .simple) (hmem : c ∈ (b.tree.item item).children) :
    (b.addSimpleChild own (b.tree.syntheticChild item) id parts c).Ensures d fail fun parts' d' =>
      b.Gathered P due item id place start (done ++ [c]) parts' d d' := by
  have hbuilt : c ∈ b.builtChildren item := by
    unfold builtChildren
    rw [hk]
    exact hmem
  unfold addSimpleChild
  split
  · next hi =>
    refine ensures_pure ⟨.refl h, o, hc.skip ?_⟩
    rw [Bool.or_eq_true, decide_eq_true_eq] at hi
    rcases hi with hi | hi
    · simp [part?, hi]
    · simp [part?, hk, hi]
  · next hi =>
    rw [Bool.or_eq_true, not_or, decide_eq_true_eq] at hi
    have hpart : b.part? item c =
        some (if (b.tree.item c).isExtension then .extension else .member) := by
      have hsyn : b.tree.syntheticChild item ≠ some c := fun he => hi.2 he.symm
      by_cases hext : (b.tree.item c).isExtension
      · simp [part?, hi.1, hsyn, hext]
      · simp [part?, hi.1, hk, hsyn, hext]
    have howned := mem_owned hbuilt (by rw [hpart]; rfl)
    exact ensures_addChild hown h o hc (hP c howned) hroom howned hpart (by simp [isListed, hk])

/-- All children of an item, one after another. -/
theorem ensures_children {step : Parts → ItemId → Build Parts} {children : List ItemId}
    {parts₀ : Parts} (h : b.Sound P due d) (o : Opened d item id place)
    (hc : b.Collected item id start [] parts₀ d)
    (hstep : ∀ done parts c d', c ∈ children → b.Sound P due d' → Opened d' item id place →
      b.Collected item id start done parts d' → (b.unbuilt d').length ≤ (b.unbuilt d).length →
      (step parts c).Ensures d' fail fun parts' d'' =>
        b.Gathered P due item id place start (done ++ [c]) parts' d' d'') :
    (children.foldlM step parts₀).Ensures d fail fun parts d' =>
      b.Gathered P due item id place start children parts d d' := by
  refine ensures_foldlM (fun done parts d' => b.Gathered P due item id place start done parts d d')
    children ⟨.refl h, o, hc⟩ fun done c rest parts d' hl hg => ?_
  refine (hstep done parts c d' (by rw [hl]; simp) hg.advance.sound hg.opened hg.collected
    (unbuilt_length_le hg.advance.grows)).mono fun parts' d'' hg' => hg.then hg'

end Schemata.Blueprint
