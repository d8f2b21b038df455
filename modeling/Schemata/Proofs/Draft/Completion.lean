import Schemata.Proofs.Draft.Kept

/-! The passes after the assembly, one after another.

Each pass comes with what it keeps and with the failures that it can end in. -/
namespace Schemata.Draft

open Search

variable {d d' : Draft} {id : ElementId} {place : TypeInfoId} {failure : Failure}

/-! ### Metadata -/

/-- The value of an attribute is refused. -/
def RefusesValue (failure : Failure) : Prop :=
  ∃ key reason, failure.cause = .invalidAttributeValue key reason

/-- With its metadata given to an element. -/
def withEntries (d : Draft) (tree : ItemTree) (id : ElementId) : Draft :=
  d.modifyElement id fun e => { e with metadata := keptValues (tree.item (d.itemOf id)) }

theorem takeEntries_ok {tree : ItemTree} (h : d.takeEntries tree id = .ok d') :
    d' = d.withEntries tree id := by
  obtain ⟨_, _, h⟩ := bind_eq_ok h
  cases h
  rfl

theorem takeEntries_error {tree : ItemTree} (h : d.takeEntries tree id = .error failure) :
    RefusesValue failure := by
  rcases bind_eq_error h with h | ⟨_, _, h⟩
  · obtain ⟨e, _, he⟩ := forM_eq_error h
    unfold checkEntry at he
    split at he
    · cases he
    · split at he
      · cases he
      · cases he
        exact ⟨_, _, rfl⟩
  · cases h

/-- The data of all elements stays as it was. -/
def SameDatas (d d' : Draft) : Prop := ∀ id, (d'.element id).data = (d.element id).data

theorem kept_withEntries (tree : ItemTree) (id : ElementId) : d.Kept (d.withEntries tree id) :=
  .of_modifyElement (fun _ => rfl) (.refl _)

theorem indexed_withEntries (h : d.Indexed) (tree : ItemTree) (id : ElementId) :
    (d.withEntries tree id).Indexed := h.modifyData (fun _ => rfl) (.refl _)

theorem sameDatas_withEntries (tree : ItemTree) (id : ElementId) :
    SameDatas d (d.withEntries tree id) := fun j => by
  unfold withEntries
  rw [element_modifyElement]
  split <;> rfl

/-- What giving all elements their metadata keeps. -/
structure EntriesTaken (d d' : Draft) : Prop where
  kept : d.Kept d'
  indexed : d'.Indexed
  data : SameDatas d d'
  typeInfos : d'.typeInfos = d.typeInfos
  narrowings : d'.narrowings = d.narrowings

theorem EntriesTaken.refl (hi : d.Indexed) : EntriesTaken d d :=
  ⟨.refl d, hi, fun _ => rfl, rfl, rfl⟩

theorem EntriesTaken.withEntries (h : EntriesTaken d d') (tree : ItemTree) (id : ElementId) :
    EntriesTaken d (d'.withEntries tree id) :=
  ⟨h.kept.trans (kept_withEntries tree id), indexed_withEntries h.indexed tree id,
    fun j => (sameDatas_withEntries tree id j).trans (h.data j), h.typeInfos, h.narrowings⟩

theorem EntriesTaken.step (h : EntriesTaken d d') {tree : ItemTree} {d'' : Draft}
    (hstep : d'.takeEntries tree id = .ok d'') : EntriesTaken d d'' := by
  rw [takeEntries_ok hstep]
  exact h.withEntries tree id

theorem takeAllEntries_ok {tree : ItemTree} {root : ElementId} (hi : d.Indexed)
    (h : d.takeAllEntries tree root = .ok d') : EntriesTaken d d' :=
  foldlM_ok (fun _ d' => EntriesTaken d d') h (.refl hi)
    fun _ _ _ _ _ _ hinv hstep => hinv.step hstep

theorem takeAllEntries_error {tree : ItemTree} {root : ElementId}
    (h : d.takeAllEntries tree root = .error failure) : RefusesValue failure := by
  obtain ⟨_, _, _, _, _, _, he⟩ :=
    foldlM_error (fun _ _ => True) h trivial fun _ _ _ _ _ _ _ _ => trivial
  exact takeEntries_error he

/-! ### Values -/

/-- The field of the value of a simple object is at a place. -/
def ValueField (d : Draft) (id : ElementId) (place : TypeInfoId) : Prop :=
  ∃ attributes name arity c, (d.element id).data = .simple attributes name ∧
    d.typeInfos.get? (d.element id).typeInfo = some ⟨arity, .record c⟩ ∧
    c.fields.find? name = some place

/-- The value of an element is not narrowed, or not any more. -/
def Unnarrowed (d : Draft) (id : ElementId) : Prop :=
  ∀ place, d.valuePlaces.find? (d.itemOf id) = some place → d.narrowings.find? place = none

/-- A name is taken already. -/
def RefusesName (failure : Failure) : Prop := ∃ name, failure.cause = .duplicateName name

/-- A type never became known. -/
def Unresolved (failure : Failure) : Prop := ∃ name, failure.cause = .unresolvedTypeInfo name

/-- A value that narrows another comes to no scalar. -/
def Unscaled (d : Draft) : Prop :=
  ∃ place, (d.narrowings.find? place).isSome ∧ ¬∃ type, d.ComesTo place type

/-- What settling one value keeps. -/
structure ValueStep (d d' : Draft) (id : ElementId) : Prop where
  kept : d.Kept d'
  indexed : d'.Indexed
  others : ∀ j, j ≠ id → (d'.element j).data = (d.element j).data
  fields : ∀ j place, d.ValueField j place → d'.ValueField j place

theorem settleNarrowing_ok (hi : d.Indexed) (h : d.settleNarrowing id = .ok d') :
    d.ValueStep d' id ∧ d'.Unnarrowed id ∧ ∀ j, d'.element j = d.element j := by
  unfold settleNarrowing at h
  split at h
  · next hp =>
    cases h
    refine ⟨⟨.refl d, hi, fun _ _ => rfl, fun _ _ hv => hv⟩, fun q hq => ?_, fun _ => rfl⟩
    have hq' : d.valuePlaces.find? (d.draftElement id).item = some q := hq
    rw [hp] at hq'
    cases hq'
  · next place hp =>
    split at h
    · next hcontains =>
      obtain ⟨n, hn⟩ := Option.isSome_iff_exists.1 hcontains
      split at h
      · next s hs =>
        cases h
        have hcomes := scalarFrom_sound hi hs
        refine ⟨⟨kept_scalarSettled hi hn hcomes, hi.scalarSettled hn s, fun _ _ => rfl,
          fun j q hv => ?_⟩, fun q hq => ?_, fun _ => rfl⟩
        · -- the place was not filled, and so it is not that of a record
          obtain ⟨attributes, name, arity, c, hdata, hget, hfind⟩ := hv
          refine ⟨attributes, name, arity, c, hdata, ?_, hfind⟩
          show (d.scalarSettled place s).typeInfos.get? (d.element j).typeInfo = _
          rw [get?_scalarSettled hi hn s, if_neg, hget]
          intro he
          rw [he, (hi.narrowed place n hn).1] at hget
          cases hget
        · have hq' : d.valuePlaces.find? (d.draftElement id).item = some q := hq
          rw [hp] at hq'
          cases hq'
          show (d.narrowings.erase place).find? place = none
          rw [OrderedMap.find?_erase, if_pos rfl]
      · cases h
    · next hcontains =>
      cases h
      refine ⟨⟨.refl d, hi, fun _ _ => rfl, fun _ _ hv => hv⟩, fun q hq => ?_, fun _ => rfl⟩
      have hq' : d.valuePlaces.find? (d.draftElement id).item = some q := hq
      rw [hp] at hq'
      cases hq'
      exact Option.not_isSome_iff_eq_none.1 hcontains

theorem settleNarrowing_error (hi : d.Indexed) (h : d.settleNarrowing id = .error failure) :
    Unresolved failure ∧ d.Unscaled := by
  unfold settleNarrowing at h
  split at h
  · cases h
  · next place hp =>
    split at h
    · next hcontains =>
      split at h
      · cases h
      · next hs =>
        cases h
        refine ⟨⟨_, rfl⟩, place, hcontains, fun hc => ?_⟩
        rw [← scalarAt_isSome_iff hi, hs] at hc
        cases hc
    · cases h

/-- With a name for the field of a value. -/
def valueNamed (d : Draft) (id : ElementId) (arity : Arity) (c : ClassShape) (name : String) :
    Draft :=
  d.fill (d.element id).typeInfo ⟨arity, .record { c with fields := renameValue name c.fields }⟩

theorem nameField_ok {name : String} (h : d.nameField id name = .ok d') :
    (∃ arity c, d.typeInfos.get? (d.element id).typeInfo = some ⟨arity, .record c⟩ ∧
      (name = Blueprint.valuePlaceholder ∨ c.fields.find? name = none) ∧
      d' = d.valueNamed id arity c name) ∨
    (∀ arity c, d.typeInfos.get? (d.element id).typeInfo ≠ some ⟨arity, .record c⟩) ∧ d' = d := by
  unfold nameField at h
  dsimp only at h
  split at h
  · next arity c hget =>
    split at h
    · cases h
    · next hfree =>
      cases h
      refine .inl ⟨arity, c, hget, ?_, rfl⟩
      rw [Bool.and_eq_true, decide_eq_true_eq, not_and_or, not_not] at hfree
      exact hfree.imp_right Option.not_isSome_iff_eq_none.1
  · next hnot =>
    cases h
    exact .inr ⟨hnot, rfl⟩

theorem nameField_error {name : String} (h : d.nameField id name = .error failure) :
    RefusesName failure := by
  unfold nameField at h
  dsimp only at h
  split at h
  · split at h
    · cases h
      exact ⟨name, rfl⟩
    · cases h
  · cases h

theorem lt_of_simple {attributes : List ElementId} {name : String}
    (h : (d.element id).data = .simple attributes name) : id.index < d.elements.size := by
  by_contra hn
  rw [element_of_size_le (Nat.le_of_not_lt hn)] at h
  cases h

/-- Elements that are there have their types at different places. -/
theorem Indexed.typeInfo_inj (hi : d.Indexed) {j : ElementId}
    (hid : id.index < d.elements.size) (hj : j.index < d.elements.size)
    (he : (d.element j).typeInfo = (d.element id).typeInfo) :
    j = id := by
  have hplace := hi.place j hj
  rw [he] at hplace
  have hids := hi.element j hj
  rw [hi.place_inj hplace (hi.place id hid), hi.element id hid] at hids
  exact (Option.some.inj hids).symm

section Naming

variable {arity : Arity} {c : ClassShape} {name : String}

theorem get?_valueNamed (name : String)
    (hget : d.typeInfos.get? (d.element id).typeInfo = some ⟨arity, .record c⟩)
    (q : TypeInfoId) : (d.valueNamed id arity c name).typeInfos.get? q =
      if q = (d.element id).typeInfo then
        some ⟨arity, .record { c with fields := renameValue name c.fields }⟩
      else d.typeInfos.get? q := by
  show (d.typeInfos.fill _ _).get? q = _
  rw [TypeInfoArena.get?_fill]
  by_cases hq : q = (d.element id).typeInfo
  · rw [if_pos ⟨hq, TypeInfoArena.index_lt_of_get? hget⟩, if_pos hq]
  · rw [if_neg fun hp => hq hp.1, if_neg hq]

theorem kept_valueNamed
    (hget : d.typeInfos.get? (d.element id).typeInfo = some ⟨arity, .record c⟩) :
    d.Kept (d.valueNamed id arity c name) := by
  have hgets := get?_valueNamed name hget
  have hstep : (d.valueNamed id arity c name).scalarStep = d.scalarStep := by
    funext q
    unfold scalarStep
    by_cases hq : q = (d.element id).typeInfo
    · rw [hgets, if_pos hq, hq, hget]
    · rw [hgets, if_neg hq]
      rfl
  refine .of_typeInfos (TypeInfoArena.size_fill _ _ _) (fun q hq => ?_) (fun _ => .inl rfl)
    fun q type => ?_
  · show ((d.valueNamed id arity c name).typeInfos.get? q).isSome
    rw [hgets]
    split
    · rfl
    · exact hq
  · show Ends (d.valueNamed id arity c name).scalarStep q _ ↔ Ends d.scalarStep q _
    rw [hstep]

theorem Indexed.valueNamed (h : d.Indexed) (hlt : id.index < d.elements.size)
    (hget : d.typeInfos.get? (d.element id).typeInfo = some ⟨arity, .record c⟩) :
    (d.valueNamed id arity c name).Indexed := by
  have hid := h.element id hlt
  have hplace := h.place id hlt
  refine h.fill (by rw [hid]; rfl) (.inl hplace) ?_ fun q hq => h.types _ _ hget q ?_
  · cases hn : d.narrowings.find? (d.element id).typeInfo with
    | none => rfl
    | some n =>
      rw [(h.narrowed _ n hn).1] at hget
      cases hget
  · rcases List.mem_append.1 hq with hq | hq
    · exact List.mem_append_left _ hq
    · exact List.mem_append_right _ (mem_values_renameValue hq)

end Naming

/-- With another name for the value of a simple object. -/
theorem kept_setData {attributes : List ElementId} {name : String} (name' : String)
    (hdata : (d.element id).data = .simple attributes name) :
    d.Kept (d.setData id (.simple attributes name')) :=
  .of_modifyElement (fun _ => rfl) (.inr ⟨attributes, name, name', hdata, rfl⟩)

theorem valueStep_named (hi : d.Indexed) {attributes : List ElementId} {name : String}
    (hdata : (d.element id).data = .simple attributes Blueprint.valuePlaceholder)
    (h : d.nameField id name = .ok d') :
    d.ValueStep (d'.setData id (.simple attributes name)) id := by
  have hlt := lt_of_simple hdata
  have hothers : ∀ d₁ : Draft, (∀ j, d₁.element j = d.element j) → ∀ j, j ≠ id →
      (d₁.setData id (.simple attributes name)).element j = d.element j := fun d₁ hd j hj => by
    rw [← hd]
    exact (element_modifyElement _ id j _).trans (if_neg fun he => hj he.1)
  have hself : ∀ d₁ : Draft, d₁.elements.size = d.elements.size →
      (∀ j, d₁.element j = d.element j) →
      (d₁.setData id (.simple attributes name)).element id =
        { d.element id with data := .simple attributes name } := fun d₁ hsize hd => by
    rw [← hd]
    exact (element_modifyElement _ id id _).trans (if_pos ⟨rfl, hsize ▸ hlt⟩)
  rcases nameField_ok h with ⟨arity, c, hget, hname, rfl⟩ | ⟨hnot, rfl⟩
  · have hsame : ∀ j, (d.valueNamed id arity c name).element j = d.element j := fun _ => rfl
    have hgets := get?_valueNamed name hget
    refine ⟨(kept_valueNamed hget).trans (kept_setData name hdata),
      (hi.valueNamed hlt hget).modifyData (fun _ => rfl) (.inr ⟨_, _, name, hdata, rfl⟩),
      fun j hj => by rw [hothers (d.valueNamed id arity c name) hsame j hj], fun j q hv => ?_⟩
    obtain ⟨attributes', name', arity', c', hdata', hget', hfind⟩ := hv
    by_cases hj : j = id
    · subst hj
      rw [hdata] at hdata'
      cases hdata'
      rw [hget] at hget'
      cases hget'
      refine ⟨attributes, name, arity, { c with fields := renameValue name c.fields }, ?_, ?_,
        (find?_renameValue hname).trans hfind⟩
      · rw [hself (d.valueNamed j arity c name) rfl hsame]
      · rw [hself (d.valueNamed j arity c name) rfl hsame]
        exact (hgets _).trans (if_pos rfl)
    · -- another element has its type at another place
      have hplaces : (d.element j).typeInfo ≠ (d.element id).typeInfo := fun he =>
        hj (hi.typeInfo_inj hlt (lt_of_simple hdata') he)
      refine ⟨attributes', name', arity', c', ?_, ?_, hfind⟩
      · rw [hothers (d.valueNamed id arity c name) hsame j hj]
        exact hdata'
      · rw [hothers (d.valueNamed id arity c name) hsame j hj]
        exact (hgets _).trans ((if_neg hplaces).trans hget')
  · refine ⟨kept_setData name hdata,
      hi.modifyData (fun _ => rfl) (.inr ⟨_, _, name, hdata, rfl⟩),
      fun j hj => by rw [hothers d' (fun _ => rfl) j hj], fun j q hv => ?_⟩
    obtain ⟨attributes', name', arity', c', hdata', hget', hfind⟩ := hv
    by_cases hj : j = id
    · subst hj
      exact absurd hget' (hnot arity' c')
    · refine ⟨attributes', name', arity', c', ?_, ?_, hfind⟩ <;>
        · rw [hothers d' (fun _ => rfl) j hj]
          assumption

theorem ValueStep.trans {d'' : Draft} (h : d.ValueStep d' id) (h' : d'.ValueStep d'' id) :
    d.ValueStep d'' id :=
  ⟨h.kept.trans h'.kept, h'.indexed, fun j hj => (h'.others j hj).trans (h.others j hj),
    fun j q hv => h'.fields j q (h.fields j q hv)⟩

/-- What is not narrowed stays so. -/
theorem Unnarrowed.kept (h : d.Unnarrowed id) (hk : d.Kept d') : d'.Unnarrowed id := by
  intro q hq
  rw [hk.valuePlaces, hk.itemOf] at hq
  rcases hk.narrowings q with hn | hn
  · exact hn.trans (h q hq)
  · exact hn.1

/-- One value is settled and named. -/
theorem settleValue_ok (hi : d.Indexed)
    (hname : ∀ attributes name, (d.element id).data = .simple attributes name →
      name = Blueprint.valuePlaceholder) (h : d.settleValue id = .ok d') :
    d.ValueStep d' id ∧ ((d.element id).data.kind = .simple → d'.Unnarrowed id) := by
  unfold settleValue at h
  split at h
  · next attributes name hdata =>
    obtain ⟨d₁, h₁, h⟩ := bind_eq_ok h
    obtain ⟨d₂, h₂, h⟩ := bind_eq_ok h
    cases h
    obtain rfl := hname attributes name hdata
    obtain ⟨hstep, hsettled, hsame⟩ := settleNarrowing_ok hi h₁
    have hstep₂ := valueStep_named hstep.indexed (by rw [hsame]; exact hdata) h₂
    exact ⟨hstep.trans hstep₂, fun _ => hsettled.kept hstep₂.kept⟩
  · next hnot =>
    cases h
    refine ⟨⟨.refl _, hi, fun _ _ => rfl, fun _ _ hv => hv⟩, fun hk => ?_⟩
    cases hdata : (d.element id).data with
    | simple attributes name => exact absurd hdata (hnot attributes name)
    | _ =>
      rw [hdata] at hk
      cases hk

theorem settleValue_error (hi : d.Indexed) (h : d.settleValue id = .error failure) :
    RefusesName failure ∨ Unresolved failure ∧ d.Unscaled := by
  unfold settleValue at h
  split at h
  · rcases bind_eq_error h with h | ⟨d₁, h₁, h⟩
    · exact .inr (settleNarrowing_error hi h)
    · rcases bind_eq_error h with h | ⟨d₂, h₂, h⟩
      · exact .inl (nameField_error h)
      · cases h
  · cases h

/-- What settling the values of some elements keeps. -/
structure ValuesSettled (d : Draft) (done : List ElementId) (d' : Draft) : Prop where
  kept : d.Kept d'
  indexed : d'.Indexed
  others : ∀ j, j ∉ done → (d'.element j).data = (d.element j).data
  fields : ∀ j place, d.ValueField j place → d'.ValueField j place
  settled : ∀ j ∈ done, (d'.element j).data.kind = .simple → d'.Unnarrowed j

/-- No value has its name yet. -/
def Unnamed (d : Draft) : Prop := ∀ id attributes name,
  (d.element id).data = .simple attributes name → name = Blueprint.valuePlaceholder

theorem ValuesSettled.step {start : Draft} {done rest : List ElementId}
    (h : ValuesSettled start done d) (hnamed : start.Unnamed) (hn : (done ++ id :: rest).Nodup)
    (hstep : d.settleValue id = .ok d') : ValuesSettled start (done ++ [id]) d' := by
  have hnew : id ∉ done := fun hmem =>
    (List.nodup_append.1 hn).2.2 id hmem id List.mem_cons_self rfl
  obtain ⟨hs, hsettled⟩ := settleValue_ok h.indexed (fun attributes name hdata =>
    hnamed id attributes name ((h.others id hnew).symm.trans hdata)) hstep
  refine ⟨h.kept.trans hs.kept, hs.indexed, fun j hj => ?_,
    fun j q hv => hs.fields j q (h.fields j q hv), fun j hj hk => ?_⟩
  · rw [List.mem_append, List.mem_singleton, not_or] at hj
    exact (hs.others j hj.2).trans (h.others j hj.1)
  · rw [(hs.kept.data j).kind] at hk
    rcases List.mem_append.1 hj with hj | hj
    · exact (h.settled j hj hk).kept hs.kept
    · rw [List.mem_singleton.1 hj] at hk ⊢
      exact hsettled hk

theorem nodup_walk (d : Draft) (root : ElementId) : (d.walk root).Nodup := nodup_reach _ _ _

theorem settleAllValues_ok {root : ElementId} (hi : d.Indexed) (hnamed : d.Unnamed)
    (h : d.settleAllValues root = .ok d') : ValuesSettled d (d.walk root) d' :=
  foldlM_ok (fun done d' => ValuesSettled d done d') h
    ⟨.refl d, hi, fun _ _ => rfl, fun _ _ hv => hv, fun _ hj => by cases hj⟩
    fun _ _ _ _ _ hl hinv hstep => hinv.step hnamed (hl ▸ d.nodup_walk root) hstep

theorem Unscaled.of_kept (h : d'.Unscaled) (hk : d.Kept d') : d.Unscaled := by
  obtain ⟨q, hq, hnone⟩ := h
  refine ⟨q, ?_, fun ⟨type, hc⟩ => hnone ⟨type, (hk.comesTo q type).2 hc⟩⟩
  rcases hk.narrowings q with hn | hn
  · exact hn ▸ hq
  · rw [hn.1] at hq
    cases hq

theorem settleAllValues_error {root : ElementId} (hi : d.Indexed) (hnamed : d.Unnamed)
    (h : d.settleAllValues root = .error failure) :
    RefusesName failure ∨ Unresolved failure ∧ d.Unscaled := by
  obtain ⟨_, _, _, d₁, hl, hinv, he⟩ := foldlM_error (fun done d' => ValuesSettled d done d') h
    ⟨.refl d, hi, fun _ _ => rfl, fun _ _ hv => hv, fun _ hj => by cases hj⟩
    fun _ _ _ _ _ hl hinv hstep => hinv.step hnamed (hl ▸ d.nodup_walk root) hstep
  exact (settleValue_error hinv.indexed he).imp_right fun hu => ⟨hu.1, hu.2.of_kept hinv.kept⟩

end Schemata.Draft

/-! ### Alternatives -/

namespace Schemata.TypeInfoArena

variable {arena : TypeInfoArena} {place : TypeInfoId}

theorem alternatives?_eq_some_iff {alternatives : List TypeInfoId} :
    arena.alternatives? place = some alternatives ↔
      ∃ arity, arena.get? place = some ⟨arity, .anyOf alternatives⟩ := by
  unfold alternatives?
  split
  · next arity alternatives' hget => simp [hget]
  · next hnot => exact iff_of_false nofun fun ⟨arity, hget⟩ => hnot arity _ hget

theorem alternatives?_mentioned {alternatives : List TypeInfoId}
    (h : arena.alternatives? place = some alternatives) :
    ∃ info, arena.get? place = some info ∧ info.shape.mentioned = alternatives := by
  obtain ⟨arity, hget⟩ := alternatives?_eq_some_iff.1 h
  exact ⟨_, hget, rfl⟩

/-- One of the alternatives at some place. -/
def Listed (arena : TypeInfoArena) (q : TypeInfoId) : Prop :=
  ∃ place alternatives, arena.alternatives? place = some alternatives ∧ q ∈ alternatives

/-- Flattening moves what is listed already. -/
theorem listed_of_mem_flattenFrom (bound : Nat) (expanded : List TypeInfoId)
    (place : TypeInfoId) :
    ∀ q ∈ (arena.flattenFrom bound expanded place).alternatives, arena.Listed q := by
  induction bound generalizing expanded place with
  | zero => intro q hq; cases hq
  | succ bound ih =>
    have hone : ∀ (sofar : Flattened) (x : TypeInfoId), arena.Listed x →
        (∀ q ∈ sofar.alternatives, arena.Listed q) →
        ∀ q ∈ (arena.flattenOne (arena.flattenFrom bound) sofar x).alternatives,
          arena.Listed q := by
      intro sofar x hx hsofar q hq
      have hadd : q ∈ sofar.alternatives ++ [x] → arena.Listed q := fun hq => by
        rcases List.mem_append.1 hq with hq | hq
        · exact hsofar q hq
        · exact List.mem_singleton.1 hq ▸ hx
      unfold flattenOne at hq
      split at hq
      · split at hq
        · exact hadd hq
        · rcases List.mem_append.1 hq with hq | hq
          · exact hsofar q hq
          · exact ih _ _ q hq
      · exact hadd hq
    have hfold : ∀ (l : List TypeInfoId) (sofar : Flattened), (∀ x ∈ l, arena.Listed x) →
        (∀ q ∈ sofar.alternatives, arena.Listed q) →
        ∀ q ∈ (l.foldl (arena.flattenOne (arena.flattenFrom bound)) sofar).alternatives,
          arena.Listed q := by
      intro l
      induction l with
      | nil => intro sofar _ hs; exact hs
      | cons x rest ihl =>
        intro sofar hl hs
        exact ihl _ (fun y hy => hl y (List.mem_cons_of_mem x hy))
          (hone sofar x (hl x List.mem_cons_self) hs)
    refine hfold _ _ (fun x hx => ?_) fun q hq => by cases hq
    cases halt : arena.alternatives? place with
    | none =>
      rw [halt] at hx
      cases hx
    | some alternatives =>
      rw [halt] at hx
      exact ⟨place, alternatives, halt, hx⟩

/-- What alternatives are flattened to is there, as long as types name only what is there. -/
theorem flattenFrom_lt {n : Nat}
    (ht : ∀ place info, arena.get? place = some info → ∀ q ∈ info.shape.mentioned, q.index < n)
    (bound : Nat) (expanded : List TypeInfoId) (place : TypeInfoId) :
    ∀ q ∈ (arena.flattenFrom bound expanded place).alternatives, q.index < n := by
  intro q hq
  obtain ⟨place, alternatives, halt, hq⟩ := listed_of_mem_flattenFrom bound expanded place q hq
  obtain ⟨info, hget, hm⟩ := alternatives?_mentioned halt
  exact ht place info hget q (hm ▸ hq)

/-- Only alternatives change, and to others. -/
theorem get?_flattenAt (arena : TypeInfoArena) (place q : TypeInfoId) :
    (arena.flattenAt place).get? q = arena.get? q ∨
      ∃ arity alternatives, arena.get? q = some ⟨arity, .anyOf alternatives⟩ ∧
        (arena.flattenAt place).get? q = some ⟨arity, .anyOf (arena.flatten place)⟩ := by
  obtain ⟨i⟩ := place
  obtain ⟨j⟩ := q
  unfold flattenAt adjust get?
  dsimp only
  rw [Array.getElem?_modify]
  split
  · cases harr : arena.slots[j]? with
    | none => exact .inl rfl
    | some slot =>
      cases slot with
      | none => exact .inl rfl
      | some info =>
        obtain ⟨arity, shape⟩ := info
        cases shape with
        | anyOf alternatives => exact .inr ⟨arity, alternatives, rfl, rfl⟩
        | _ => exact .inl rfl
  · exact .inl rfl

@[simp] theorem size_flattenAt (arena : TypeInfoArena) (place : TypeInfoId) :
    (arena.flattenAt place).size = arena.size := by simp [flattenAt, adjust, size]

end Schemata.TypeInfoArena

namespace Schemata.Draft

open Search

variable {d d' : Draft} {id : ElementId}

/-- With the alternatives at a place flattened. -/
def flattened (d : Draft) (place : TypeInfoId) : Draft :=
  { d with typeInfos := d.typeInfos.flattenAt place }

theorem kept_flattened (d : Draft) (place : TypeInfoId) : d.Kept (d.flattened place) := by
  have hstep : (d.flattened place).scalarStep = d.scalarStep := by
    funext q
    unfold scalarStep
    rcases d.typeInfos.get?_flattenAt place q with h | ⟨arity, alternatives, h, h'⟩
    · rw [show (d.flattened place).typeInfos.get? q = _ from h]
      rfl
    · rw [show (d.flattened place).typeInfos.get? q = _ from h', h]
  refine .of_typeInfos (TypeInfoArena.size_flattenAt _ _) (fun q hq => ?_) (fun _ => .inl rfl)
    fun q type => ?_
  · rcases d.typeInfos.get?_flattenAt place q with h | ⟨arity, alternatives, h, h'⟩
    · rw [h]
      exact hq
    · rw [h']
      rfl
  · show Ends (d.flattened place).scalarStep q _ ↔ Ends d.scalarStep q _
    rw [hstep]

theorem Indexed.flattened (h : d.Indexed) (place : TypeInfoId) : (d.flattened place).Indexed := by
  have hget := d.typeInfos.get?_flattenAt place
  have hsome : ∀ q, ((d.typeInfos.flattenAt place).get? q).isSome →
      (d.typeInfos.get? q).isSome := by
    intro q hq
    rcases hget q with he | ⟨arity, alternatives, he, _⟩
    · exact he ▸ hq
    · rw [he]
      rfl
  have hsize : (d.typeInfos.flattenAt place).size = d.typeInfos.size :=
    TypeInfoArena.size_flattenAt _ _
  refine ⟨h.progress, h.element, h.place, ?_, fun i q hp hq => h.filled i q hp (hsome q hq),
    fun i q hp hq => h.valueFilled i q hp (hq.imp_left (hsome q)), fun q n hn => ?_,
    fun q info hq x hx => ?_, h.mentioned⟩
  · show (d.places.values ++ d.valuePlaces.values).Perm (d.typeInfos.flattenAt place).ids
    unfold TypeInfoArena.ids
    rw [hsize]
    exact h.places
  · obtain ⟨hnone, hlt, hitem⟩ := h.narrowed q n hn
    refine ⟨?_, hsize ▸ hlt, hitem⟩
    rcases hget q with he | ⟨arity, alternatives, he, _⟩
    · exact he.trans hnone
    · rw [hnone] at he
      cases he
  · show x.index < (d.typeInfos.flattenAt place).size
    rw [hsize]
    rcases hget q with he | ⟨arity, alternatives, _, he⟩
    · exact h.types q info (he.symm.trans hq) x hx
    · rw [show (d.typeInfos.flattenAt place).get? q = some info from hq] at he
      cases he
      exact TypeInfoArena.flattenFrom_lt h.types _ _ _ x hx

/-- What flattening keeps. -/
structure Flattened (d d' : Draft) : Prop where
  kept : d.Kept d'
  indexed : d'.Indexed
  data : SameDatas d d'
  fields : ∀ j place, d.ValueField j place → d'.ValueField j place
  narrowings : d'.narrowings = d.narrowings

theorem flattened_flattenVariant (hi : d.Indexed) (id : ElementId) :
    Flattened d (d.flattenVariant id) := by
  unfold flattenVariant
  split
  · refine ⟨kept_flattened d _, hi.flattened _, fun _ => rfl, fun j q hv => ?_, rfl⟩
    obtain ⟨attributes, name, arity, c, hdata, hget, hfind⟩ := hv
    refine ⟨attributes, name, arity, c, hdata, ?_, hfind⟩
    rcases d.typeInfos.get?_flattenAt (d.element id).typeInfo (d.element j).typeInfo with
      he | ⟨_, _, he, _⟩
    · exact he.trans hget
    · rw [hget] at he
      cases he
  · exact ⟨.refl d, hi, fun _ => rfl, fun _ _ hv => hv, rfl⟩

theorem flattened_flattenVariants (hi : d.Indexed) (root : ElementId) :
    Flattened d (d.flattenVariants root) := by
  refine foldl_inv (fun _ => Flattened d) ⟨.refl d, hi, fun _ => rfl, fun _ _ hv => hv, rfl⟩
    fun _ id _ d' _ h => ?_
  have hs := flattened_flattenVariant h.indexed id
  exact ⟨h.kept.trans hs.kept, hs.indexed, fun j => (hs.data j).trans (h.data j),
    fun j q hv => hs.fields j q (h.fields j q hv), hs.narrowings.trans h.narrowings⟩

end Schemata.Draft
