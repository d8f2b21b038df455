import Schemata.Proofs.Draft.Completion

/-! What completing a draft makes of metadata and of types.

Every element that the passes walk to has the values of its item's entries that it
takes over, and these have passed the checks that the assembled draft puts them to;
no other element has metadata. Of the types of elements only two kinds change: the field of a simple
object's value gets its name, and alternatives are flattened to others. -/
namespace Schemata

open Draft

/-! ### Types -/

/-- The name that the metadata of an item gives to the field of a value, or the usual one. -/
def valueNameOf (i : Item) : String :=
  (((keptValues i).find? Key.fundamentalName).bind Value.asText?).getD Key.defaultFundamentalName

namespace TypeInfo

variable {info info' info'' : TypeInfo}

/-- With a name for the field of a value. -/
def withValueName (name : String) (info : TypeInfo) : TypeInfo :=
  match info.shape with
  | .record c => { info with shape := .record { c with fields := renameValue name c.fields } }
  | _ => info

/-- The same type, but for the alternatives of which it is one. -/
def SameButAlternatives (info info' : TypeInfo) : Prop :=
  info' = info ∨ ∃ arity alternatives alternatives',
    info = ⟨arity, .anyOf alternatives⟩ ∧ info' = ⟨arity, .anyOf alternatives'⟩

theorem SameButAlternatives.trans (h : info.SameButAlternatives info')
    (h' : info'.SameButAlternatives info'') : info.SameButAlternatives info'' := by
  rcases h with rfl | ⟨arity, alternatives, _, rfl, rfl⟩
  · exact h'
  · rcases h' with rfl | ⟨_, _, alternatives', he, rfl⟩
    · exact .inr ⟨arity, alternatives, _, rfl, rfl⟩
    · cases he
      exact .inr ⟨arity, alternatives, alternatives', rfl, rfl⟩

end TypeInfo

namespace Draft

variable {d d' d₁ d₂ : Draft} {tree : ItemTree} {root id j : ElementId} {info : TypeInfo}

/-! ### Metadata -/

/-- An element takes over the value of an entry that the schema knows. -/
theorem find?_keptValues {i : Item} {key : String} {v : Value} (hschema : i.schema.contains key)
    (hv : Metadata.value? i.metadata key = some v) : (keptValues i).find? key = some v := by
  obtain ⟨entry, he, rfl⟩ := Option.map_eq_some_iff.1 hv
  unfold keptValues
  rw [OrderedMap.find?_mapValues, OrderedMap.find?_filter_key _
    fun key => i.isExtension || i.schema.contains key, hschema, Bool.or_true, if_pos rfl, he]
  rfl

theorem metadata_withEntries (tree : ItemTree) (id j : ElementId) :
    ((d.withEntries tree id).element j).metadata =
      if j = id ∧ j.index < d.elements.size then keptValues (tree.item (d.itemOf id))
      else (d.element j).metadata := by
  unfold withEntries
  rw [element_modifyElement]
  split <;> rfl

/-- The fields that a check can look for are those that the element has anyway. -/
theorem fieldNames_contextOf_withEntries (tree : ItemTree) (id j : ElementId) :
    ((d.withEntries tree id).contextOf j).fieldNames =
      d.typeInfos.fieldNames (d.element j).typeInfo := by
  show d.typeInfos.fieldNames ((d.withEntries tree id).element j).typeInfo = _
  rw [(kept_withEntries tree id).element j]

/-- Every element that is walked to gets the entries of its item, and no other one does. -/
theorem metadata_takeAllEntries (h : d.takeAllEntries tree root = .ok d')
    (hlt : j.index < d.elements.size) : (d'.element j).metadata =
      if j ∈ d.walk root then keptValues (tree.item (d.itemOf j)) else (d.element j).metadata := by
  suffices hall : d.Kept d' ∧ ∀ j, j.index < d.elements.size → (d'.element j).metadata =
      if j ∈ d.walk root then keptValues (tree.item (d.itemOf j)) else (d.element j).metadata from
    hall.2 j hlt
  refine foldlM_ok (fun done d' => d.Kept d' ∧ ∀ j, j.index < d.elements.size →
    (d'.element j).metadata =
      if j ∈ done then keptValues (tree.item (d.itemOf j)) else (d.element j).metadata) h
    ⟨.refl d, by simp⟩ fun done id rest d₁ d₂ _ ⟨hk, hdone⟩ hstep => ?_
  rw [takeEntries_ok hstep]
  refine ⟨hk.trans (kept_withEntries tree id), fun j hlt => ?_⟩
  rw [metadata_withEntries]
  by_cases hji : j = id
  · rw [if_pos ⟨hji, hk.elements ▸ hlt⟩, if_pos (by simp [hji]), hk.itemOf, hji]
  · rw [if_neg fun he => hji he.1, hdone j hlt]
    simp [hji]

/-! ### Checks of values -/

/-- Scalars depend on types and on narrowings only. -/
theorem scalarFrom_congr (htypes : d'.typeInfos = d.typeInfos)
    (hnarrowings : d'.narrowings = d.narrowings) (bound : Nat) (place : TypeInfoId) :
    d'.scalarFrom bound place = d.scalarFrom bound place := by
  induction bound generalizing place with
  | zero => rfl
  | succ bound ih =>
    unfold scalarFrom
    rw [htypes, hnarrowings]
    dsimp only
    split
    · next n _ => rw [ih n.source]
    · rfl

/-- No scalar depends on what metadata elements have been given before. -/
theorem EntriesTaken.scalarOf (h : EntriesTaken d d') (id : ElementId) :
    d'.scalarOf id = d.scalarOf id := by
  have hscalarAt : d'.scalarAt = d.scalarAt := by
    funext place
    unfold scalarAt
    rw [h.narrowings, scalarFrom_congr h.typeInfos h.narrowings]
  unfold Draft.scalarOf
  rw [h.data id, hscalarAt, h.kept.valuePlaces, h.kept.element id,
    show (d'.draftElement id).item = (d.draftElement id).item from h.kept.itemOf id]

/-- What a check sees of an element is its own metadata, whatever others have been given before. -/
theorem EntriesTaken.contextOf_withEntries (h : EntriesTaken d d') (hi : d.Indexed)
    (hlt : id.index < d.elements.size) (tree : ItemTree) :
    (d'.withEntries tree id).contextOf id = (d.withEntries tree id).contextOf id := by
  have hlater := h.withEntries tree id
  have hfirst := (EntriesTaken.refl hi).withEntries tree id
  have helement : (d'.withEntries tree id).element id = (d.withEntries tree id).element id := by
    rw [hlater.kept.element id, hfirst.kept.element id, hlater.data id, hfirst.data id,
      metadata_withEntries, metadata_withEntries, if_pos ⟨rfl, h.kept.elements.symm ▸ hlt⟩,
      if_pos ⟨rfl, hlt⟩, h.kept.itemOf]
  unfold contextOf
  rw [helement, hlater.scalarOf, hfirst.scalarOf, hlater.typeInfos, hfirst.typeInfos]

/-- A check depends on nothing but what it sees. -/
theorem checkEntry_congr (h : d'.contextOf id = d.contextOf id) (i : Item) (e : String × Value) :
    d'.checkEntry i id e = d.checkEntry i id e := by
  have helement : d'.element id = d.element id := congrArg ElementContext.element h
  unfold checkEntry
  rw [h, helement]

/-- The entries that an element is given pass their checks. -/
theorem checks_takeEntries (hlt : id.index < d.elements.size)
    (h : d.takeEntries tree id = .ok d') : ∀ e ∈ (keptValues (tree.item (d.itemOf id))).entries,
      d'.checkEntry (tree.item (d.itemOf id)) id e = .ok () := by
  obtain ⟨_, hchecks, hok⟩ := bind_eq_ok h
  cases hok
  have hmetadata := metadata_withEntries (d := d) tree id id
  rw [if_pos ⟨rfl, hlt⟩] at hmetadata
  rw [← hmetadata]
  exact forM_eq_ok hchecks

theorem checks_takeAllEntries (hi : d.Indexed) (h : d.takeAllEntries tree root = .ok d')
    (hj : j ∈ d.walk root) (hlt : j.index < d.elements.size) :
    ∀ e ∈ (keptValues (tree.item (d.itemOf j))).entries,
      (d.withEntries tree j).checkEntry (tree.item (d.itemOf j)) j e = .ok () := by
  suffices hall : EntriesTaken d d' ∧ ∀ j ∈ d.walk root, j.index < d.elements.size →
      ∀ e ∈ (keptValues (tree.item (d.itemOf j))).entries,
        (d.withEntries tree j).checkEntry (tree.item (d.itemOf j)) j e = .ok () from
    hall.2 j hj hlt
  refine foldlM_ok (fun done d' => EntriesTaken d d' ∧ ∀ j ∈ done, j.index < d.elements.size →
    ∀ e ∈ (keptValues (tree.item (d.itemOf j))).entries,
      (d.withEntries tree j).checkEntry (tree.item (d.itemOf j)) j e = .ok ()) h
    ⟨.refl hi, by simp⟩ fun done id rest d₁ d₂ _ ⟨htaken, hdone⟩ hstep => ?_
  refine ⟨htaken.step hstep, fun j hj hlt e he => ?_⟩
  rcases List.mem_append.1 hj with hj | hj
  · exact hdone j hj hlt e he
  · obtain rfl := List.mem_singleton.1 hj
    rw [← checkEntry_congr (htaken.contextOf_withEntries hi hlt tree), ← takeEntries_ok hstep,
      ← htaken.kept.itemOf]
    exact checks_takeEntries (htaken.kept.elements.symm ▸ hlt) hstep e
      (htaken.kept.itemOf j ▸ he)

/-! ### Values -/

/-- The type of an element is where no value is narrowed. -/
theorem get?_settleNarrowing (hi : d.Indexed) (h : d.settleNarrowing id = .ok d')
    (hget : d.typeInfos.get? (d.element j).typeInfo = some info) :
    d'.typeInfos.get? (d.element j).typeInfo = some info := by
  unfold settleNarrowing at h
  split at h
  · cases h
    exact hget
  · next place _ =>
    split at h
    · next hcontains =>
      obtain ⟨n, hn⟩ := Option.isSome_iff_exists.1 hcontains
      split at h
      · next s _ =>
        cases h
        refine (get?_scalarSettled hi hn s _).trans ((if_neg fun he => ?_).trans hget)
        rw [he, (hi.narrowed place n hn).1] at hget
        cases hget
      · cases h
    · cases h
      exact hget

theorem get?_nameField {name : String} (hi : d.Indexed) (hid : id.index < d.elements.size)
    (hj : j.index < d.elements.size) (h : d.nameField id name = .ok d')
    (hget : d.typeInfos.get? (d.element j).typeInfo = some info) :
    d'.typeInfos.get? (d.element j).typeInfo =
      some (if j = id then info.withValueName name else info) := by
  rcases nameField_ok h with ⟨arity, c, hrecord, _, rfl⟩ | ⟨hnot, rfl⟩
  · rw [get?_valueNamed name hrecord]
    by_cases hji : j = id
    · rw [hji] at hget ⊢
      rw [if_pos rfl, if_pos rfl]
      rw [hrecord] at hget
      cases hget
      rfl
    · rw [if_neg fun he => hji (hi.typeInfo_inj hid hj he), if_neg hji]
      exact hget
  · rw [hget]
    split
    · next hji =>
      obtain ⟨arity, shape⟩ := info
      rw [hji] at hget
      cases shape with
      | record c => exact absurd hget (hnot arity c)
      | _ => rfl
    · rfl

/-- The type of an element once its value is named. -/
def settledInfo (d : Draft) (j : ElementId) (info : TypeInfo) : TypeInfo :=
  if (d.element j).data.kind = .simple then info.withValueName (d.valueName j) else info

theorem types_settleValue (hi : d.Indexed) (hj : j.index < d.elements.size)
    (h : d.settleValue id = .ok d')
    (hget : d.typeInfos.get? (d.element j).typeInfo = some info) :
    d'.typeInfos.get? (d.element j).typeInfo =
      some (if j = id then d.settledInfo j info else info) := by
  unfold settleValue at h
  split at h
  · next attributes name hdata =>
    obtain ⟨d₁, h₁, h⟩ := bind_eq_ok h
    obtain ⟨d₂, h₂, h⟩ := bind_eq_ok h
    cases h
    obtain ⟨hstep, _, hsame⟩ := settleNarrowing_ok hi h₁
    have hlt := lt_of_simple hdata
    have hget₁ := get?_settleNarrowing hi h₁ hget
    rw [← hsame j] at hget₁ ⊢
    refine (get?_nameField hstep.indexed (hstep.kept.elements ▸ hlt) (hstep.kept.elements ▸ hj) h₂
      hget₁).trans (congrArg some ?_)
    split
    · next hji =>
      unfold settledInfo
      rw [hji, hdata]
      rfl
    · rfl
  · next hnot =>
    cases h
    rw [hget]
    split
    · next hji =>
      unfold settledInfo
      rw [if_neg]
      rw [hji]
      intro hk
      cases hdata : (d.element id).data with
      | simple attributes name => exact hnot attributes name hdata
      | _ =>
        rw [hdata] at hk
        cases hk
    · rfl

theorem metadata_settleValue (hi : d.Indexed) (h : d.settleValue id = .ok d') (j : ElementId) :
    (d'.element j).metadata = (d.element j).metadata := by
  unfold settleValue at h
  split at h
  · obtain ⟨d₁, h₁, h⟩ := bind_eq_ok h
    obtain ⟨d₂, h₂, h⟩ := bind_eq_ok h
    cases h
    have hsame := (settleNarrowing_ok hi h₁).2.2
    have hsame₂ : d₂.element j = d₁.element j := by
      rcases nameField_ok h₂ with ⟨_, _, _, _, rfl⟩ | ⟨_, rfl⟩ <;> rfl
    rw [← hsame j, ← hsame₂]
    unfold setData
    rw [element_modifyElement]
    split <;> rfl
  · cases h
    rfl

/-- A value is not called as another field is, unless its name stays open. -/
def ValueUnused (d : Draft) (j : ElementId) : Prop :=
  (d.element j).data.kind = .simple → ∀ arity c,
    d.typeInfos.get? (d.element j).typeInfo = some ⟨arity, .record c⟩ →
    d.valueName j = Blueprint.valuePlaceholder ∨ c.fields.find? (d.valueName j) = none

theorem valueUnused_of_settleValue (hi : d.Indexed) (h : d.settleValue id = .ok d') :
    d.ValueUnused id := by
  intro hk arity c hget
  unfold settleValue at h
  split at h
  · obtain ⟨d₁, h₁, h⟩ := bind_eq_ok h
    obtain ⟨d₂, h₂, _⟩ := bind_eq_ok h
    have hget₁ := get?_settleNarrowing hi h₁ hget
    rw [← (settleNarrowing_ok hi h₁).2.2 id] at hget₁
    rcases nameField_ok h₂ with ⟨_, _, hrecord, hname, _⟩ | ⟨hnot, _⟩
    · rw [hget₁] at hrecord
      cases hrecord
      exact hname
    · exact absurd hget₁ (hnot arity c)
  · next hnot =>
    cases hdata : (d.element id).data with
    | simple attributes name => exact absurd hdata (hnot attributes name)
    | _ =>
      rw [hdata] at hk
      cases hk

/-- What settling values makes of metadata and of types, and which names it has found unused. -/
theorem types_settleAllValues (hi : d.Indexed) (hnamed : d.Unnamed)
    (h : d.settleAllValues root = .ok d') :
    (∀ j, (d'.element j).metadata = (d.element j).metadata) ∧
      (∀ j info, j.index < d.elements.size →
        d.typeInfos.get? (d.element j).typeInfo = some info →
        d'.typeInfos.get? (d.element j).typeInfo =
          some (if j ∈ d.walk root then d.settledInfo j info else info)) ∧
      ∀ j ∈ d.walk root, j.index < d.elements.size → d.ValueUnused j := by
  refine (foldlM_ok (fun done d' => ValuesSettled d done d' ∧
    (∀ j, (d'.element j).metadata = (d.element j).metadata) ∧
    (∀ j info, j.index < d.elements.size → d.typeInfos.get? (d.element j).typeInfo = some info →
      d'.typeInfos.get? (d.element j).typeInfo =
        some (if j ∈ done then d.settledInfo j info else info)) ∧
    ∀ j ∈ done, j.index < d.elements.size → d.ValueUnused j) h
    ⟨⟨.refl d, hi, fun _ _ => rfl, fun _ _ hv => hv, fun _ hj => by cases hj⟩, fun _ => rfl,
      fun j info _ hget => by rw [hget]; rfl, fun _ hj => by cases hj⟩
    fun done id rest d₁ d₂ hl ⟨hs, hmetadata, htypes, hunused⟩ hstep => ?_).2
  have hn := d.nodup_walk root
  rw [hl] at hn
  have hnew : id ∉ done := fun hmem =>
    (List.nodup_append.1 hn).2.2 id hmem id List.mem_cons_self rfl
  have hname : ∀ j, d₁.valueName j = d.valueName j := fun j => by
    unfold valueName
    rw [hmetadata]
  have htypeInfo : ∀ j, (d₁.element j).typeInfo = (d.element j).typeInfo := fun j => by
    rw [hs.kept.element j]
  refine ⟨hs.step hnamed hn hstep,
    fun j => (metadata_settleValue hs.indexed hstep j).trans (hmetadata j),
    fun j info hj hget => ?_, fun j hj hlt => ?_⟩
  · have hget₁ := htypes j info hj hget
    rw [← htypeInfo] at hget₁ ⊢
    rw [types_settleValue hs.indexed (hs.kept.elements ▸ hj) hstep hget₁]
    by_cases hji : j = id
    · have hsettled : d₁.settledInfo j info = d.settledInfo j info := by
        unfold settledInfo
        rw [hname, (hs.kept.data j).kind]
      rw [if_pos hji, if_neg (hji ▸ hnew), if_pos (by simp [hji]), hsettled]
    · rw [if_neg hji]
      simp [hji]
  · rcases List.mem_append.1 hj with hj | hj
    · exact hunused j hj hlt
    · obtain rfl := List.mem_singleton.1 hj
      intro hk arity c hget
      have hget₁ := htypes j _ hlt hget
      rw [if_neg hnew, ← htypeInfo] at hget₁
      rw [← hname]
      exact valueUnused_of_settleValue hs.indexed hstep ((hs.kept.data j).kind.trans hk) arity c
        hget₁

/-- A simple object has the name of its value once that is settled. -/
theorem valueName_settleValue (hi : d.Indexed) (h : d.settleValue id = .ok d')
    (hk : (d.element id).data.kind = .simple) :
    (d'.element id).data.valueName? = some (d.valueName id) := by
  unfold settleValue at h
  split at h
  · next attributes name hdata =>
    obtain ⟨d₁, h₁, h⟩ := bind_eq_ok h
    obtain ⟨d₂, h₂, h⟩ := bind_eq_ok h
    cases h
    have hsize : d₂.elements.size = d₁.elements.size := by
      rcases nameField_ok h₂ with ⟨_, _, _, _, rfl⟩ | ⟨_, rfl⟩ <;> rfl
    have hlt : id.index < d₂.elements.size := by
      rw [hsize, (settleNarrowing_ok hi h₁).1.kept.elements]
      exact lt_of_simple hdata
    unfold setData
    rw [element_modifyElement, if_pos ⟨rfl, hlt⟩]
    rfl
  · next hnot =>
    cases hdata : (d.element id).data with
    | simple attributes name => exact absurd hdata (hnot attributes name)
    | _ =>
      rw [hdata] at hk
      cases hk

theorem valueName_settleAllValues (hi : d.Indexed) (hnamed : d.Unnamed)
    (h : d.settleAllValues root = .ok d') (hk : (d.element j).data.kind = .simple) :
    (d'.element j).data.valueName? =
      if j ∈ d.walk root then some (d.valueName j) else (d.element j).data.valueName? := by
  suffices hall : ValuesSettled d (d.walk root) d' ∧
      (∀ j, (d'.element j).metadata = (d.element j).metadata) ∧
      ∀ j ∈ d.walk root, (d.element j).data.kind = .simple →
        (d'.element j).data.valueName? = some (d.valueName j) by
    split
    · next hj => exact hall.2.2 j hj hk
    · next hj => rw [hall.1.others j hj]
  refine foldlM_ok (fun done d' => ValuesSettled d done d' ∧
    (∀ j, (d'.element j).metadata = (d.element j).metadata) ∧
    ∀ j ∈ done, (d.element j).data.kind = .simple →
      (d'.element j).data.valueName? = some (d.valueName j)) h
    ⟨⟨.refl d, hi, fun _ _ => rfl, fun _ _ hv => hv, fun _ hj => by cases hj⟩, fun _ => rfl,
      by simp⟩
    fun done id rest d₁ d₂ hl ⟨hs, hmetadata, hdone⟩ hstep => ?_
  have hn := d.nodup_walk root
  rw [hl] at hn
  have hnew : id ∉ done := fun hmem =>
    (List.nodup_append.1 hn).2.2 id hmem id List.mem_cons_self rfl
  have hunnamed : ∀ attributes name, (d₁.element id).data = .simple attributes name →
      name = Blueprint.valuePlaceholder := fun attributes name hdata =>
    hnamed id attributes name ((hs.others id hnew).symm.trans hdata)
  refine ⟨hs.step hnamed hn hstep,
    fun j => (metadata_settleValue hs.indexed hstep j).trans (hmetadata j), fun j hj hk => ?_⟩
  by_cases hji : j = id
  · subst hji
    have hkind := (hs.kept.data j).kind.trans hk
    rw [valueName_settleValue hs.indexed hstep hkind]
    unfold valueName
    rw [hmetadata]
  · rw [(settleValue_ok hs.indexed hunnamed hstep).1.others j hji]
    exact hdone j ((List.mem_append.1 hj).resolve_right fun hj => hji (List.mem_singleton.1 hj)) hk

/-! ### Alternatives -/

theorem types_flattenVariant (d : Draft) (id : ElementId) :
    (∀ j, ((d.flattenVariant id).element j).metadata = (d.element j).metadata) ∧
      ∀ place info, d.typeInfos.get? place = some info →
        ∃ info', (d.flattenVariant id).typeInfos.get? place = some info' ∧
          info.SameButAlternatives info' := by
  unfold flattenVariant
  split
  · refine ⟨fun _ => rfl, fun place info hget => ?_⟩
    rcases d.typeInfos.get?_flattenAt (d.element id).typeInfo place with
      he | ⟨arity, alternatives, he, he'⟩
    · exact ⟨info, he.trans hget, .inl rfl⟩
    · rw [hget] at he
      cases he
      exact ⟨_, he', .inr ⟨arity, alternatives, _, rfl, rfl⟩⟩
  · exact ⟨fun _ => rfl, fun place info hget => ⟨info, hget, .inl rfl⟩⟩

theorem types_flattenVariants (d : Draft) (root : ElementId) :
    (∀ j, ((d.flattenVariants root).element j).metadata = (d.element j).metadata) ∧
      ∀ place info, d.typeInfos.get? place = some info →
        ∃ info', (d.flattenVariants root).typeInfos.get? place = some info' ∧
          info.SameButAlternatives info' := by
  refine foldl_inv (fun _ (d' : Draft) => (∀ j, (d'.element j).metadata = (d.element j).metadata) ∧
    ∀ place info, d.typeInfos.get? place = some info →
      ∃ info', d'.typeInfos.get? place = some info' ∧ info.SameButAlternatives info')
    ⟨fun _ => rfl, fun place info hget => ⟨info, hget, .inl rfl⟩⟩
    fun _ id _ d' _ ⟨hmetadata, htypes⟩ => ?_
  obtain ⟨hmetadata', htypes'⟩ := types_flattenVariant d' id
  refine ⟨fun j => (hmetadata' j).trans (hmetadata j), fun place info hget => ?_⟩
  obtain ⟨info₁, hget₁, hsame₁⟩ := htypes place info hget
  obtain ⟨info₂, hget₂, hsame₂⟩ := htypes' place info₁ hget₁
  exact ⟨info₂, hget₂, hsame₁.trans hsame₂⟩

/-! ### All passes -/

/-- What the passes make of an element that they walk to, or do not. -/
structure Settles (tree : ItemTree) (d : Draft) (root : ElementId) (d' : Draft) : Prop where
  metadata : ∀ id, id.index < d.elements.size → (d'.element id).metadata =
    if id ∈ d.walk root then keptValues (tree.item (d.itemOf id)) else (d.element id).metadata
  checks : ∀ id ∈ d.walk root, id.index < d.elements.size →
    ∀ e ∈ (keptValues (tree.item (d.itemOf id))).entries,
      (d.withEntries tree id).checkEntry (tree.item (d.itemOf id)) id e = .ok ()
  valueName : ∀ id, (d.element id).kind = .simple → (d'.element id).data.valueName? =
    if id ∈ d.walk root then some (valueNameOf (tree.item (d.itemOf id)))
    else (d.element id).data.valueName?
  types : ∀ id info, id.index < d.elements.size →
    d.typeInfos.get? (d.element id).typeInfo = some info →
    ∃ info', d'.typeInfos.get? (d.element id).typeInfo = some info' ∧
      (if id ∈ d.walk root ∧ (d.element id).kind = .simple then
        info.withValueName (valueNameOf (tree.item (d.itemOf id)))
      else info).SameButAlternatives info'
  unused : ∀ id ∈ d.walk root, id.index < d.elements.size → (d.element id).kind = .simple →
    ∀ arity c, d.typeInfos.get? (d.element id).typeInfo = some ⟨arity, .record c⟩ →
    valueNameOf (tree.item (d.itemOf id)) = Blueprint.valuePlaceholder ∨
      c.fields.find? (valueNameOf (tree.item (d.itemOf id))) = none

theorem settles_of_passes (hi : d.Indexed) (hnamed : d.Unnamed)
    (h₁ : d.takeAllEntries tree root = .ok d₁) (h₂ : d₁.settleAllValues root = .ok d₂) :
    Settles tree d root (d₂.flattenVariants root) := by
  have he := takeAllEntries_ok hi h₁
  have hnamed₁ : d₁.Unnamed := fun id attributes name hdata =>
    hnamed id attributes name ((he.data id).symm.trans hdata)
  obtain ⟨hmetadata₂, htypes₂, hunused⟩ := types_settleAllValues he.indexed hnamed₁ h₂
  obtain ⟨hmetadata₃, htypes₃⟩ := types_flattenVariants d₂ root
  have hvalueName : ∀ id ∈ d.walk root, id.index < d.elements.size →
      d₁.valueName id = valueNameOf (tree.item (d.itemOf id)) := fun id hw hlt => by
    unfold valueName
    rw [metadata_takeAllEntries h₁ hlt, if_pos hw]
    rfl
  refine ⟨fun id hlt => ?_, fun id hid hlt => checks_takeAllEntries hi h₁ hid hlt,
    fun id hk => ?_, fun id info hlt hget => ?_, fun id hid hlt hk arity c hget => ?_⟩
  · rw [hmetadata₃, hmetadata₂]
    exact metadata_takeAllEntries h₁ hlt
  · have hkind : (d₁.element id).data.kind = .simple := by
      rw [he.data id]
      exact hk
    have hlt : id.index < d.elements.size := by
      by_contra hn
      rw [element_of_size_le (Nat.le_of_not_lt hn)] at hk
      cases hk
    rw [(flattened_flattenVariants
      (settleAllValues_ok he.indexed hnamed₁ h₂).indexed root).data id,
      valueName_settleAllValues he.indexed hnamed₁ h₂ hkind, he.kept.walk, he.data id]
    by_cases hw : id ∈ d.walk root
    · rw [if_pos hw, if_pos hw, hvalueName id hw hlt]
    · rw [if_neg hw, if_neg hw]
  · have htypeInfo : (d₁.element id).typeInfo = (d.element id).typeInfo := by
      rw [he.kept.element id]
    rw [← htypeInfo, ← he.typeInfos] at hget
    have hget₂ := htypes₂ id info (he.kept.elements ▸ hlt) hget
    rw [htypeInfo] at hget₂
    obtain ⟨info', hget₃, hsame⟩ := htypes₃ _ _ hget₂
    refine ⟨info', hget₃, ?_⟩
    have hsettled : (if id ∈ d₁.walk root then d₁.settledInfo id info else info) =
        if id ∈ d.walk root ∧ (d.element id).kind = .simple then
          info.withValueName (valueNameOf (tree.item (d.itemOf id))) else info := by
      rw [he.kept.walk]
      unfold settledInfo
      rw [he.data id, ← ite_and]
      by_cases hw : id ∈ d.walk root
      · rw [hvalueName id hw hlt]
        rfl
      · rw [if_neg fun hc => hw hc.1, if_neg fun hc => hw hc.1]
    rw [← hsettled]
    exact hsame
  · have hunused' := hunused id (he.kept.walk root ▸ hid) (he.kept.elements ▸ hlt)
      ((congrArg ElementData.kind (he.data id)).trans hk) arity c
    rw [hvalueName id hid hlt, he.kept.element id, he.typeInfos] at hunused'
    exact hunused' hget

end Draft
end Schemata
