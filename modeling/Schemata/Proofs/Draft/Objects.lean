import Schemata.Proofs.Draft.Elements

/-! Building the elements of objects.

The parts of an object are collected child by child; then it gets its type, whose
fields are those of its members. A simple object has a field for its value as
well, and the place of the value is filled or narrowed before. -/
namespace Schemata.Blueprint

open Draft Build

variable {b : Blueprint} {P : ItemId → Prop} {due : List Task} {d d' : Draft} {bound : Nat}
  {own : ItemId → ElementId → Build ElementId} {item : ItemId} {id : ElementId}
  {place : TypeInfoId}
  {start : OrderedMap String TypeInfoId} {parts : Parts}

/-! ### Compound objects -/

theorem ElementsOf.lt {items : List ItemId} {ids : List ElementId} (h : ElementsOf d items ids)
    (hi : d.Indexed) : ∀ x ∈ ids, x.index < d.elements.size := fun x hx => by
  obtain ⟨c, _, hc⟩ := exists_of_mem_right h hx
  exact hi.lt_of_idOf? hc

theorem Collected.nil (hblank : Blank (d.element id)) {parts₀ : Parts}
    (hchildren : parts₀.children = []) (hdefinitions : parts₀.definitions = []) :
    b.Collected item id parts₀.fields [] parts₀ d where
  extensions := hblank.extensions ▸ .nil
  definitions := hdefinitions ▸ .nil
  members := hchildren ▸ .nil
  fields := ⟨[], .nil, rfl⟩
  names := hblank.names
  owned := fun _ hc => by cases hc

theorem owned_of_object {children : List ItemId} (hc : b.Collected item id start children parts d)
    (hbuilt : b.builtChildren item = children) (halt : b.ownAlternatives item = []) :
    ∀ c ∈ b.owned item, ∃ e, d.idOf? c = some e ∧ (d.element e).parent.isSome := by
  intro c hmem
  unfold owned at hmem
  rw [hbuilt, halt, List.append_nil] at hmem
  obtain ⟨hmem, hp⟩ := List.mem_filter.1 hmem
  exact hc.owned c hmem hp

theorem shaped_compound (hk : (b.tree.item item).kind = some .compound)
    (hc : b.Collected item id ∅ (b.tree.item item).children parts d) {bases : List TypeInfoId}
    (hbases : PlacesOf d (b.tree.item item).itemReferences bases)
    {links : List (Option ElementId)}
    (hlinks : links.length = (b.tree.item item).itemReferences.length) :
    b.Shaped due d item
      { d.element id with data := .compound parts.children parts.definitions links [] }
      ⟨b.arityOf item, .record ⟨bases, parts.fields⟩⟩ := by
  have hbuilt : b.builtChildren item = (b.tree.item item).children := by
    unfold builtChildren
    rw [hk]
  have halt : b.ownAlternatives item = [] := by
    unfold ownAlternatives
    rw [hk]
  have hparts : ∀ part, b.parts item part = b.among item part (b.tree.item item).children :=
    fun part => congrArg _ hbuilt
  refine ⟨hk, ?_, ?_, ?_, ?_, fun l hl => ?_, owned_of_object hc hbuilt halt, ?_, fun hs => ?_,
    fun name hn => by cases hn⟩
  · rw [hparts]
    exact hc.extensions
  · rw [hparts]
    exact hc.definitions
  · rw [hparts]
    exact hc.members
  · rw [hbuilt]
    exact hc.names
  · unfold linked?
    rw [hk]
    cases l with
    | base i =>
      obtain ⟨x, hx⟩ := Option.isSome_iff_exists.1 hl
      obtain ⟨hi, _⟩ := List.getElem?_eq_some_iff.1 hx
      rw [hlinks] at hi
      exact Option.isSome_iff_exists.2 ⟨_, List.getElem?_eq_getElem hi⟩
    | variation i => cases hl
    | target => cases hl
  · obtain ⟨fields, hf, hfields⟩ := hc.fields
    unfold Typed
    rw [hk, hbuilt, hfields]
    exact ⟨bases, fields, hbases, hf, rfl⟩
  · rw [hk] at hs
    cases hs

theorem shaped_simple (hk : (b.tree.item item).kind = some .simple) {valuePlace : TypeInfoId}
    (hvalue : d.valuePlaces.find? item = some valuePlace)
    (hvalued : b.Valued due d item valuePlace)
    (hc : b.Collected item id (OrderedMap.ofList [(valuePlaceholder, valuePlace)])
      (b.tree.item item).children parts d) :
    b.Shaped due d item { d.element id with data := .simple parts.children valuePlaceholder }
      ⟨b.arityOf item, .record ⟨[], parts.fields⟩⟩ := by
  have hbuilt : b.builtChildren item = (b.tree.item item).children := by
    unfold builtChildren
    rw [hk]
  have halt : b.ownAlternatives item = [] := by
    unfold ownAlternatives
    rw [hk]
  have hparts : ∀ part, b.parts item part = b.among item part (b.tree.item item).children :=
    fun part => congrArg _ hbuilt
  have hnone : b.parts item .definition = [] := by
    rw [hparts]
    refine List.filter_eq_nil_iff.2 fun c _ => ?_
    simp only [part?, hk, decide_eq_true_eq]
    split <;> [simp; split <;> [simp; split <;> simp]]
  refine ⟨hk, ?_, ?_, ?_, ?_, fun l hl => ?_, owned_of_object hc hbuilt halt, ?_,
    fun _ => ⟨valuePlace, hvalue, hvalued⟩, fun name hn => ?_⟩
  · rw [hparts]
    exact hc.extensions
  · rw [hnone]
    exact .nil
  · rw [hparts]
    exact hc.members
  · rw [hbuilt]
    exact hc.names
  · cases l <;> cases hl
  · obtain ⟨fields, hf, hfields⟩ := hc.fields
    unfold Typed
    rw [hk, hbuilt, hfields]
    exact ⟨valuePlace, fields, hvalue, hf, rfl⟩
  · cases hn
    rfl

theorem ensures_placesOf (h : b.Sound P due d) {items : List ItemId} (hP : ∀ x ∈ items, P x)
    {fail : Failure → Prop} :
    (items.mapM placeOf).Ensures d fail fun places d' =>
      b.Advance P due none 0 d d' ∧ PlacesOf d' items places := by
  refine ensures_mapM (fun done places d' => b.Advance P due none 0 d d' ∧ PlacesOf d' done places)
    items ⟨.refl h, .nil⟩ fun done x rest places d₁ hl hinv => ?_
  have hx : x ∈ items := by rw [hl]; simp
  refine (ensures_placeOf hinv.1.sound (hP x hx)).mono fun q d₂ hstep => ⟨hinv.1.trans hstep.1, ?_⟩
  exact List.rel_append (hinv.2.mono hstep.1.grows) (.cons hstep.2 .nil)

theorem ensures_buildCompound (hb : b.Closed P) (hown : Owns b P due (b.Fails P) bound own)
    (h : b.Sound P due d) (o : Opened d item id place) (hblank : Blank (d.element id))
    (hP : P item) (hk : (b.tree.item item).kind = some .compound)
    (hroom : (b.unbuilt d).length < bound) :
    (b.buildCompound own item id place).Ensures d (b.Fails P) fun _ d' =>
      b.Built P due item id d d' := by
  unfold buildCompound
  refine (ensures_children h o (.nil hblank rfl rfl) fun done parts c d₁ hc h₁ o₁ hc₁ hle =>
    ensures_addCompoundChild hown h₁ o₁ hc₁ (hb.owned item hP)
      (Nat.lt_of_le_of_lt hle hroom) hk hc).bind fun parts d₁ hg => ?_
  refine (ensures_placesOf hg.advance.sound (hb.bases item hP hk)).bind fun bases d₂ hstep => ?_
  obtain ⟨ha₂, hbases⟩ := hstep
  have o₂ := hg.opened.spared ha₂.grows
  have hc₂ := hg.collected.spared hg.opened.started ha₂.grows
  have hi₂ := ha₂.sound.indexed
  have hlength : ((b.tree.item item).itemReferences.map fun _ => (none : Option ElementId)).length =
      (b.tree.item item).itemReferences.length := List.length_map _
  have hsettled := settle ha₂.sound o₂ (fun x hx => by
    simp only [ElementData.named, ElementData.owned, ElementData.crossing, List.append_nil,
      List.mem_append, List.mem_filterMap, List.mem_map] at hx
    rcases hx with (hx | hx) | ⟨_, ⟨_, _, rfl⟩, hx⟩
    · exact hc₂.members.lt hi₂ x hx
    · exact hc₂.definitions.lt hi₂ x hx
    · cases hx) (shaped_compound hk hc₂ hbases hlength)
  have hs := hsettled.progress.symm ▸ o₂.started
  have hlinked : ∀ i a, (b.tree.item item).itemReferences[i]? = some a →
      b.linked? item (.base i) = some a := fun i a hi => by
    unfold linked?
    rw [hk]
    exact hi
  refine ensures_modify_bind ((ensures_links id .base (fun _ _ he => by cases he; rfl)
    (b.tree.item item).itemReferences hsettled.advance.sound
    fun i a d₃ hi h₃ hp₃ g₃ hl => ?_).mono fun _ d₃ hstep => ?_)
  · rw [hsettled.data] at hl
    refine ensures_link h₃ (hp₃ ▸ hs) (hlinked i a hi) (hb.linked item hP _ a (hlinked i a hi))
      (hl.trans ?_)
    show ((b.tree.item item).itemReferences.map fun _ => none)[i]? = some none
    rw [List.getElem?_map, hi]
    rfl
  · obtain ⟨ha₃, hp₃, halike, hlinks⟩ := hstep
    have hlength : (b.tree.item item).itemReferences.length ≤
        (b.tree.item item).references.length := List.length_filterMap_le _ _
    refine ⟨(((hg.advance.trans (ha₂.weaken _)).trans hsettled.advance).trans ha₃).le
      (by unfold weight; omega), hp₃ ▸ hs, ?_, fun l x hx => ?_⟩
    · obtain ⟨info, hi, hshape⟩ := hsettled.shaped
      exact ⟨info, by rw [halike.typeInfo]; exact ha₃.grows.filled _ _ hi,
        hshape.mono ha₃.grows halike⟩
    · unfold linked? at hx
      rw [hk] at hx
      cases l with
      | base i => exact hlinks i x hx
      | variation i => cases hx
      | target => cases hx

/-! ### Simple objects -/

theorem scalarPlace?_lt (h : d.Indexed) {x : ItemId} {q : TypeInfoId}
    (hq : b.scalarPlace? d x = some q) : q.index < d.typeInfos.size := by
  unfold scalarPlace? at hq
  split at hq
  · exact h.valuePlace_lt hq
  · exact h.place_lt hq

theorem ensures_scalarPlaceOf (h : b.Sound P due d) {x : ItemId} (hP : P x)
    {fail : Failure → Prop} :
    (b.scalarPlaceOf x).Ensures d fail fun q d' =>
      b.Advance P due none 0 d d' ∧ b.scalarPlace? d' x = some q := by
  unfold scalarPlaceOf scalarPlace?
  split
  · next hk => exact (ensures_valuePlaceOf h hk).mono fun q d' hq => ⟨hq.1, hq.2.1⟩
  · exact ensures_placeOf h hP

/-- What working out the value of a simple object leaves. -/
structure ValueBuilt (b : Blueprint) (P : ItemId → Prop) (due : List Task) (item : ItemId)
    (id : ElementId) (place valuePlace : TypeInfoId) (d d' : Draft) : Prop where
  advance : b.Advance P due (some id) 1 d d'
  opened : Opened d' item id place
  blank : Blank (d'.element id)
  place : d'.valuePlaces.find? item = some valuePlace
  valued : b.Valued due d' item valuePlace

/-- The place of a value is filled or narrowed. -/
theorem Opened.fillValue (o : Opened d item id place) (h : b.Sound P due d)
    {valuePlace : TypeInfoId} (hp : d.valuePlaces.find? item = some valuePlace)
    (hv : Vacant d valuePlace) (info : TypeInfo)
    (hm : ∀ q ∈ info.shape.mentioned, q.index < d.typeInfos.size) :
    b.Advance P due (some id) 0 d (d.fill valuePlace info) ∧
      Opened (d.fill valuePlace info) item id place ∧
      (d.fill valuePlace info).typeInfos.get? valuePlace = some info := by
  refine ⟨⟨h.fill o.started (.inr hp) hv.unfilled hv.unnarrowed hm,
    grows_fill h.indexed o.started (.inr hp) hv.unfilled info, Nat.le_refl _⟩,
    ⟨o.started, o.placed, ?_⟩, get?_fill_self info (h.indexed.valuePlace_lt hp)⟩
  rw [get?_fill_of_ne info (h.indexed.place_ne_valuePlace o.placed hp)]
  exact o.unfilled

/-- Once there is a value, or its narrowing is noted, all that is left is to ask for its source. -/
theorem ensures_ensureSource {d₂ : Draft} {source : ItemId} {valuePlace q : TypeInfoId}
    (hP : P source)
    (ha : b.Advance P due (some id) 0 d d₂) (o : Opened d₂ item id place)
    (hblank : Blank (d₂.element id)) (hchild : b.tree.syntheticChild item = none)
    (hhead : (b.tree.simpleSources item).head? = some source)
    (hp : d₂.valuePlaces.find? item = some valuePlace) (hq : b.scalarPlace? d₂ source = some q)
    (hvalue : if (b.overlay item).isEmpty then
      d₂.typeInfos.get? valuePlace = some ⟨.one, .ref q⟩
      else d₂.narrowings.find? valuePlace = some ⟨q, b.overlay item⟩) :
    (ensure source).Ensures d₂ (b.Fails P) fun _ d' =>
      b.ValueBuilt P due item id place valuePlace d d' := by
  refine (ensures_ensure ha.sound hP).mono fun _ d₃ hstep => ?_
  obtain ⟨ha₃, hasked⟩ := hstep
  refine ⟨ha.trans (ha₃.weaken _), o.spared ha₃.grows, hblank.spared o.started ha₃.grows,
    ha₃.grows.valuePlaces _ _ hp, ?_⟩
  unfold Valued
  rw [hchild]
  refine ⟨source, q, hhead, scalarPlace?_mono hq ha₃.grows, hasked, ?_⟩
  split at hvalue
  · rw [if_pos ‹_›]
    exact ha₃.grows.filled _ _ hvalue
  · rw [if_neg ‹_›]
    exact ha₃.grows.narrowings _ _ hvalue

theorem ensures_buildValue (hb : b.Closed P) (h : b.Sound P due d) (o : Opened d item id place)
    (hblank : Blank (d.element id)) (hP : P item) (hk : (b.tree.item item).kind = some .simple)
    {valuePlace : TypeInfoId} (hp : d.valuePlaces.find? item = some valuePlace)
    (hv : Vacant d valuePlace) :
    (b.buildValue item valuePlace).Ensures d (b.Fails P) fun _ d' =>
      b.ValueBuilt P due item id place valuePlace d d' := by
  unfold buildValue
  split
  · next child hchild =>
    split
    · next hnone => exact ensures_throw ⟨item, hP, by simp [fault, hk, hchild, hnone]⟩
    · next type htype =>
      have hfill := o.fillValue h hp hv
        ⟨.one, .scalar ⟨type, constraintsOf (b.tree.item child).metadata type⟩⟩
        fun q hq => by cases hq
      refine ensures_modify ⟨hfill.1.le (Nat.zero_le 1), hfill.2.1, hblank, hp, ?_⟩
      unfold Valued
      rw [hchild]
      exact ⟨type, htype, hfill.2.2⟩
  · next hchild =>
    split
    · next hnone => exact ensures_throw ⟨item, hP, by simp [fault, hk, hchild, hnone]⟩
    · next source rest hsources =>
      have hhead : (b.tree.simpleSources item).head? = some source := by rw [hsources]; rfl
      have hsource : b.valueSource? item = some source := by
        unfold valueSource?
        rw [hk, hchild]
        exact hhead
      have hPs := hb.source item hP source hsource
      refine (ensures_scalarPlaceOf h hPs).bind fun q d₁ hstep => ?_
      obtain ⟨ha₁, hq⟩ := hstep
      have o₁ := o.spared ha₁.grows
      have hblank₁ := hblank.spared o.started ha₁.grows
      have hp₁ := ha₁.grows.valuePlaces _ _ hp
      have hspared := (ha₁.grows.spared item id (by simp) o.started).valuePlace valuePlace hp
      have hv₁ : Vacant d₁ valuePlace :=
        ⟨hspared.1.trans hv.unfilled, hspared.2.trans hv.unnarrowed⟩
      have hqlt := scalarPlace?_lt ha₁.sound.indexed hq
      show (if (b.overlay item).isEmpty then
          (modify fun d => d.fill valuePlace ⟨.one, .ref q⟩) >>= fun _ => ensure source
        else (modify fun d => d.narrowedAt valuePlace ⟨q, b.overlay item⟩) >>=
          fun _ => ensure source : Build PUnit).Ensures _ _ _
      split
      · next hempty =>
        have hfill := o₁.fillValue ha₁.sound hp₁ hv₁ ⟨.one, .ref q⟩ fun x hx => by
          rw [List.mem_singleton.1 hx]
          exact hqlt
        refine ensures_modify_bind (ensures_ensureSource hPs ((ha₁.weaken _).trans hfill.1)
          hfill.2.1 hblank₁ hchild hhead hp₁ (scalarPlace?_mono hq hfill.1.grows) ?_)
        rw [if_pos hempty]
        exact hfill.2.2
      · next hempty =>
        have hnarrow : b.Advance P due (some id) 0 d₁
            (d₁.narrowedAt valuePlace ⟨q, b.overlay item⟩) :=
          ⟨ha₁.sound.narrowedAt o₁.started hp₁ hv₁.unfilled hv₁.unnarrowed hqlt,
            grows_narrowedAt ha₁.sound.indexed o₁.started hp₁ hv₁.unnarrowed _, Nat.le_refl _⟩
        refine ensures_modify_bind (ensures_ensureSource hPs ((ha₁.weaken _).trans hnarrow)
          ⟨o₁.started, o₁.placed, o₁.unfilled⟩ hblank₁ hchild hhead hp₁
          (scalarPlace?_mono hq hnarrow.grows) ?_)
        rw [if_neg hempty]
        exact OrderedMap.find?_insert_self _ _ _

theorem ensures_buildSimple (hb : b.Closed P) (hown : Owns b P due (b.Fails P) bound own)
    (h : b.Sound P due d) (o : Opened d item id place) (hblank : Blank (d.element id))
    (hv : ∀ p, d.valuePlaces.find? item = some p → Vacant d p) (hP : P item)
    (hk : (b.tree.item item).kind = some .simple) (hroom : (b.unbuilt d).length < bound) :
    (b.buildSimple own item id place).Ensures d (b.Fails P) fun _ d' =>
      b.Built P due item id d d' := by
  unfold buildSimple
  refine (ensures_valuePlaceOf h hk).bind fun valuePlace d₁ hstep => ?_
  obtain ⟨ha₁, hp₁, hv₁⟩ := hstep
  refine (ensures_buildValue hb ha₁.sound (o.spared ha₁.grows) (hblank.spared o.started ha₁.grows)
    hP hk hp₁ (hv₁ hv)).bind fun _ d₂ hvalue => ?_
  have ha₂ := hvalue.advance
  refine (ensures_children ha₂.sound hvalue.opened (.nil hvalue.blank rfl rfl)
    fun done parts c d₃ hc h₃ o₃ hc₃ hle => ensures_addSimpleChild hown h₃ o₃ hc₃
      (hb.owned item hP) (Nat.lt_of_le_of_lt (Nat.le_trans hle
        (unbuilt_length_le (ha₁.grows.weaken _ |>.trans ha₂.grows))) hroom) hk hc).bind
    fun parts d₃ hg => ?_
  have ha₃ := hg.advance
  have hi₃ := ha₃.sound.indexed
  have hsettled := settle ha₃.sound hg.opened (fun x hx => by
    simp only [ElementData.named, ElementData.owned, ElementData.crossing, List.append_nil] at hx
    exact hg.collected.members.lt hi₃ x hx)
    (shaped_simple hk (ha₃.grows.valuePlaces _ _ hvalue.place) (hvalue.valued.mono ha₃.grows)
      hg.collected)
  have hbuilt := hsettled.leaf hg.opened.started (linked?_leaf hk (by simp))
  refine ensures_modify ⟨?_, hbuilt.started, hbuilt.described⟩
  exact ((((ha₁.weaken _).trans ha₂).trans ha₃).trans hsettled.advance).le
    (by unfold weight; omega)

end Schemata.Blueprint
