import Schemata.Proofs.Draft.Lineage

/-! Building keeps bases and what is based on them in agreement.

A step that points at no base upholds the invariant and leaves everything that was
there alone (`Build.Upholds`). An object that is being built opens its bases once
its parts are there, and points at each of them or leaves a task for it; its own
bases are all that such a step may change. A task is performed with its base as
open as it was when the task was taken out of the queue. -/
namespace Schemata

/-! ### Steps that uphold the invariant -/

namespace Build

open Draft

variable {α β σ ι : Type} {d : Draft}

/-- Wherever it starts, a step upholds the invariant and leaves all that was there alone. -/
def Upholds (x : Build α) : Prop :=
  ∀ d : Draft, d.Reciprocal → x.Ensures d (fun _ => True) fun _ d' => d.Upheld none d'

theorem upholds_pure (a : α) : Upholds (pure a) := fun _ h => ensures_pure (.refl h)

theorem upholds_throw (failure : Failure) : Upholds (throw failure : Build α) :=
  fun _ _ => ensures_throw trivial

theorem upholds_modify {f : Draft → Draft} (hf : ∀ d : Draft, d.Quiet (f d)) :
    Upholds (modify f : Build PUnit) := fun d h => ensures_modify ((hf d).upheld h)

theorem Upholds.bind {x : Build α} {f : α → Build β} (hx : x.Upholds) (hf : ∀ a, (f a).Upholds) :
    (x >>= f).Upholds := fun d h =>
  (hx d h).bind fun a d₁ h₁ => (hf a d₁ h₁.reciprocal).mono fun _ _ h₂ => h₁.trans h₂

theorem upholds_foldlM {f : σ → ι → Build σ} (hf : ∀ s x, (f s x).Upholds) (l : List ι) (s : σ) :
    Upholds (l.foldlM f s) := fun d h =>
  ensures_foldlM (fun _ _ d' => d.Upheld none d') l (.refl h) fun _ x _ s d₁ _ h₁ =>
    (hf s x d₁ h₁.reciprocal).mono fun _ _ h₂ => h₁.trans h₂

theorem upholds_mapM {f : ι → Build β} (hf : ∀ x, (f x).Upholds) (l : List ι) :
    Upholds (l.mapM f) := fun d h =>
  ensures_mapM (fun _ _ d' => d.Upheld none d') l (.refl h) fun _ x _ _ d₁ _ h₁ =>
    (hf x d₁ h₁.reciprocal).mono fun _ _ h₂ => h₁.trans h₂

theorem upholds_forM {f : ι → Build PUnit} (hf : ∀ x, (f x).Upholds) (l : List ι) :
    Upholds (l.forM f) := fun d h =>
  ensures_forM (fun _ d' => d.Upheld none d') l (.refl h) fun _ x _ d₁ _ h₁ =>
    (hf x d₁ h₁.reciprocal).mono fun _ _ h₂ => h₁.trans h₂

theorem upholds_placeOf (item : ItemId) : (placeOf item).Upholds := fun d h => by
  have q : d.Quiet (d.reserved item) := .of_same rfl rfl rfl
  refine ensures_get_bind ?_
  split
  · exact ensures_pure (.refl h)
  · exact ensures_set_bind (ensures_pure (q.upheld h))

theorem upholds_valuePlaceOf (item : ItemId) : (valuePlaceOf item).Upholds := fun d h => by
  have q : d.Quiet (d.valueReserved item) := .of_same rfl rfl rfl
  refine ensures_get_bind ?_
  split
  · exact ensures_pure (.refl h)
  · exact ensures_set_bind (ensures_pure (q.upheld h))

end Build

namespace Blueprint

open Draft Build

variable {b : Blueprint} {d : Draft} {own : ItemId → ElementId → Build ElementId} {item : ItemId}
  {id : ElementId} {place : TypeInfoId}

/-- A link that is not to a base. -/
theorem upholds_link {l : Link} (hl : ∀ index, l ≠ .base index) (id : ElementId) (x : ItemId) :
    (b.link id l x).Upholds := upholds_modify fun d => by
  dsimp only
  split
  · exact quiet_wire hl
  · refine quiet_enqueue ?_
    cases l with
    | base index => exact absurd rfl (hl index)
    | _ => rfl

theorem upholds_ensure (x : ItemId) : (ensure x).Upholds := upholds_modify fun d => by
  split
  · exact .of_same rfl rfl rfl
  · exact quiet_enqueue rfl

theorem upholds_addExtension (id extension : ElementId) : (addExtension id extension).Upholds :=
  upholds_modify fun _ => quiet_modifyElement
    (f := fun e => { e with extensions := e.extensions ++ [extension] }) (.refl _)

theorem upholds_addAttributeName (id : ElementId) (name : String) :
    (addAttributeName id name).Upholds :=
  upholds_modify fun _ => quiet_modifyElement
    (f := fun e => { e with attributeNames := e.attributeNames ++ [name] }) (.refl _)

section Own

variable (hown : ∀ child owner, (own child owner).Upholds)
include hown

theorem upholds_addChild (id : ElementId) (listed : Item → Bool) (parts : Parts) (child : ItemId) :
    (b.addChild own id listed parts child).Upholds := by
  unfold addChild
  refine (hown child id).bind fun element => ?_
  split
  · exact (upholds_addExtension id element).bind fun _ => upholds_pure _
  · split
    · exact upholds_pure _
    · refine (upholds_placeOf child).bind fun place => ?_
      split
      · exact (upholds_addAttributeName id _).bind fun _ => upholds_pure _
      · exact upholds_pure _

theorem upholds_addCompoundChild (id : ElementId) (parts : Parts) (child : ItemId) :
    (b.addCompoundChild own id parts child).Upholds := by
  unfold addCompoundChild
  dsimp only
  split
  · exact upholds_pure _
  · split
    · exact (hown child id).bind fun _ => upholds_pure _
    · exact upholds_addChild hown id _ parts child

theorem upholds_addSimpleChild (synthetic : Option ItemId) (id : ElementId) (parts : Parts)
    (child : ItemId) : (b.addSimpleChild own synthetic id parts child).Upholds := by
  unfold addSimpleChild
  split
  · exact upholds_pure _
  · exact upholds_addChild hown id _ parts child

theorem upholds_addVariation (id : ElementId) (alternative : ItemId) :
    (b.addVariation own id alternative).Upholds := by
  unfold addVariation
  refine (upholds_placeOf _).bind fun place => ?_
  split
  · exact (hown alternative id).bind fun _ => upholds_pure _
  · exact upholds_pure _

end Own

theorem upholds_scalarPlaceOf (x : ItemId) : (b.scalarPlaceOf x).Upholds := by
  unfold scalarPlaceOf
  split
  · exact upholds_valuePlaceOf x
  · exact upholds_placeOf x

theorem upholds_buildValue (item : ItemId) (place : TypeInfoId) :
    (b.buildValue item place).Upholds := by
  unfold buildValue
  split
  · split
    · exact upholds_throw _
    · exact upholds_modify fun _ => .of_same rfl rfl rfl
  · split
    · exact upholds_throw _
    · next source _ _ =>
      refine (upholds_scalarPlaceOf source).bind fun sourcePlace => ?_
      dsimp only
      split <;> split
      all_goals
        exact Upholds.bind (upholds_modify fun _ => .of_same rfl rfl rfl)
          fun _ => upholds_ensure source

/-! ### Elements -/

/-- The element of an item is being built, and has no data yet. -/
structure Unset (d : Draft) (item : ItemId) (id : ElementId) : Prop where
  started : d.progress.find? item = some (.started id)
  kind : (d.element id).data.kind ≠ .compound

theorem Unset.aside (h : Unset d item id) (hd : d.Reciprocal) {d' : Draft} (ha : d.Aside none d') :
    Unset d' item id := by
  have hlt := (hd.progress item _ h.started).1
  exact ⟨ha.progress item _ h.started, fun hk => h.kind ((ha.data id hlt (by simp)).1.1 hk)⟩

/-- Data of an element that is no compound object. -/
theorem Unset.settled (h : Unset d item id) (hd : d.Reciprocal) {d' : Draft} (hu : d.Upheld none d')
    (place : TypeInfoId) (info : TypeInfo) {data : ElementData (Option ElementId)}
    (hdata : data.kind ≠ .compound) : d.Upheld none ((d'.fill place info).setData id data) :=
  hu.trans ((quiet_settle (h.aside hd hu.aside).kind hdata).upheld hu.reciprocal)

theorem upholds_referenceShape (item target : ItemId) : (b.referenceShape item target).Upholds := by
  have hrefers : Upholds (do return Shape.ref (← placeOf (b.standIn target))) :=
    (upholds_placeOf _).bind fun _ => upholds_pure _
  unfold referenceShape
  dsimp only
  split
  · exact upholds_throw _
  all_goals
    refine Upholds.bind (upholds_pure _) fun narrowed => ?_
    split
    · exact upholds_pure _
    · exact hrefers

section Own

variable (hown : ∀ child owner, (own child owner).Upholds) (hd : d.Reciprocal)
  (hu : Unset d item id)
include hd hu

theorem upheld_buildReference : (b.buildReference item id place).Ensures d (fun _ => True)
    fun _ d' => d.Upheld none d' := by
  unfold buildReference
  refine ensures_lift_bind (fun target _ => ?_) fun _ _ => trivial
  refine (upholds_referenceShape item target d hd).bind fun shape d₁ h₁ => ensures_modify_bind ?_
  have hkind : (ElementData.reference (none : Option ElementId)).kind ≠ .compound := nofun
  have h₂ := hu.settled hd h₁ place ⟨b.arityOf item, shape⟩ hkind
  exact (upholds_link (fun _ he => by cases he) id target _ h₂.reciprocal).mono
    fun _ _ h₃ => h₂.trans h₃

theorem upheld_buildList : (b.buildList item id place).Ensures d (fun _ => True)
    fun _ d' => d.Upheld none d' := by
  unfold buildList
  refine ensures_lift_bind (fun target _ => ?_) fun _ _ => trivial
  refine (upholds_placeOf _ d hd).bind fun targetPlace d₁ h₁ => ensures_modify_bind ?_
  have hkind : (ElementData.list (none : Option ElementId)).kind ≠ .compound := nofun
  have h₂ := hu.settled hd h₁ place ⟨b.arityOf item, .ref targetPlace⟩ hkind
  exact (upholds_link (fun _ he => by cases he) id target _ h₂.reciprocal).mono
    fun _ _ h₃ => h₂.trans h₃

theorem upheld_buildFundamental : (b.buildFundamental item id place).Ensures d (fun _ => True)
    fun _ d' => d.Upheld none d' := by
  unfold buildFundamental
  split
  · exact ensures_throw trivial
  · exact ensures_modify (hu.settled hd (.refl hd) _ _ nofun)

include hown

theorem upheld_buildVariant : (b.buildVariant own item id place).Ensures d (fun _ => True)
    fun _ d' => d.Upheld none d' := by
  unfold buildVariant
  refine (upholds_mapM (upholds_addVariation hown id) _ d hd).bind fun variations d₁ h₁ =>
    ensures_modify_bind ?_
  have hkind : (ElementData.variant (variations.map Prod.snd)).kind ≠ .compound := nofun
  have h₂ := hu.settled hd h₁ place ⟨b.arityOf item, .anyOf (variations.map Prod.fst)⟩ hkind
  refine (upholds_forM (fun p => ?_) _ _ h₂.reciprocal).mono fun _ _ h₃ => h₂.trans h₃
  obtain ⟨alternative, index⟩ := p
  dsimp only
  split
  · exact upholds_pure PUnit.unit
  · exact upholds_link (fun _ he => by cases he) id alternative

theorem upheld_buildSimple : (b.buildSimple own item id place).Ensures d (fun _ => True)
    fun _ d' => d.Upheld none d' := by
  unfold buildSimple
  refine (upholds_valuePlaceOf item d hd).bind fun valuePlace d₁ h₁ => ?_
  refine (upholds_buildValue item valuePlace d₁ h₁.reciprocal).bind fun _ d₂ h₂ => ?_
  refine (upholds_foldlM (upholds_addSimpleChild hown _ id) _ _ d₂ h₂.reciprocal).bind
    fun parts d₃ h₃ => ensures_modify ?_
  exact hu.settled hd ((h₁.trans h₂).trans h₃) _ _ nofun

end Own

/-- A base is pointed at or waited for, and the ones after it stay as they are. -/
theorem ensures_linkBase (hd : d.Reciprocal) {i count : Nat} (hw : d.Waiting id i count)
    (hi : i < count) (x : ItemId) : (b.link id (.base i) x).Ensures d (fun _ => True)
      fun _ d' => d.Upheld (some id) d' ∧ d'.Waiting id (i + 1) count := by
  obtain ⟨hopen, hdue⟩ := hw i (Nat.le_refl i) hi
  have hk := ElementData.kind_of_mem_bases (List.mem_of_getElem? hopen)
  refine ensures_modify ?_
  dsimp only
  split
  · next target ht =>
    refine ⟨⟨hd.wire hopen hdue ht, aside_wire hk i target⟩, fun j hj hjn => ?_⟩
    obtain ⟨hj₁, hj₂⟩ := hw j (Nat.le_of_succ_le hj) hjn
    rw [bases_wire hk, if_pos rfl, List.getElem?_set_ne (Nat.ne_of_lt hj), dueBases_wire]
    exact ⟨hj₁, hj₂⟩
  · refine ⟨⟨hd.enqueue hopen hdue _, aside_enqueue id i _⟩, fun j hj hjn => ?_⟩
    obtain ⟨hj₁, hj₂⟩ := hw j (Nat.le_of_succ_le hj) hjn
    refine ⟨hj₁, fun hmem => ?_⟩
    rw [dueBases_enqueue] at hmem
    rcases List.mem_append.1 hmem with hmem | hmem
    · exact hj₂ hmem
    · cases List.mem_singleton.1 hmem
      exact Nat.lt_irrefl _ hj

theorem upheld_buildCompound (hown : ∀ child owner, (own child owner).Upholds) (hd : d.Reciprocal)
    (hu : Unset d item id) : (b.buildCompound own item id place).Ensures d (fun _ => True)
      fun _ d' => d.Upheld (some id) d' := by
  unfold buildCompound
  refine (upholds_foldlM (upholds_addCompoundChild hown id) _ _ d hd).bind fun parts d₁ h₁ => ?_
  refine (upholds_mapM upholds_placeOf _ d₁ h₁.reciprocal).bind fun bases d₂ h₂ =>
    ensures_modify_bind ?_
  have h := h₁.trans h₂
  obtain ⟨hs, hk⟩ := hu.aside hd h.aside
  have hlinks : ∀ link ∈ (b.tree.item item).itemReferences.map fun _ => (none : Option ElementId),
      link = none := by simp
  have hwaiting := h.reciprocal.waiting_settle (h.reciprocal.progress item _ hs).1 hk place
    ⟨b.arityOf item, .record ⟨bases, parts.fields⟩⟩ parts.children parts.definitions hlinks
  rw [List.length_map] at hwaiting
  refine (ensures_forM (fun done d' => d.Upheld (some id) d' ∧
    d'.Waiting id done.length (b.tree.item item).itemReferences.length) _
    ⟨⟨h.reciprocal.settle hs hk hlinks, (h.aside.weaken _).trans (aside_settle _ _ _ _)⟩, hwaiting⟩
    fun done y rest d' hl hinv => ?_).mono fun _ _ hinv => hinv.1
  have hy : (b.tree.item item).itemReferences.zipIdx[done.length]? = some y := by rw [hl]; simp
  rw [List.getElem?_zipIdx, Option.map_eq_some_iff] at hy
  obtain ⟨x, hx, rfl⟩ := hy
  rw [Nat.zero_add]
  refine (ensures_linkBase hinv.1.reciprocal hinv.2 (List.getElem?_eq_some_iff.1 hx).1 x).mono
    fun _ d'' hstep => ⟨hinv.1.trans hstep.1, ?_⟩
  rw [List.length_append]
  exact hstep.2

theorem upheld_build (hown : ∀ child owner, (own child owner).Upholds) (hd : d.Reciprocal)
    (hu : Unset d item id) : (b.build own item id place).Ensures d (fun _ => True)
      fun _ d' => d.Upheld (some id) d' := by
  have hweaken : ∀ {x : Build PUnit},
      x.Ensures d (fun _ => True) (fun _ d' => d.Upheld none d') →
      x.Ensures d (fun _ => True) fun _ d' => d.Upheld (some id) d' :=
    fun h => h.mono fun _ _ h => h.weaken _
  unfold build
  split
  · exact ensures_throw trivial
  · exact hweaken (upheld_buildFundamental hd hu)
  · exact upheld_buildCompound hown hd hu
  · exact hweaken (upheld_buildSimple hown hd hu)
  · exact hweaken (upheld_buildVariant hown hd hu)
  · exact hweaken (upheld_buildReference hd hu)
  · exact hweaken (upheld_buildList hd hu)
  all_goals exact hweaken (ensures_modify (hu.settled hd (.refl hd) _ _ nofun))

/-- An element is begun with no data yet, once its item has the place of its type. -/
theorem ensures_begins (hd : d.Reciprocal) (hn : d.progress.find? item = none)
    (parent : Option ElementId) : (b.start item parent).Ensures d (fun _ => True) fun r d' =>
      ∃ d₀, d.Upheld none d₀ ∧ d₀.progress.find? item = none ∧ r.1 = d₀.nextId ∧
        d' = d₀.begun item (b.begunElement item parent r.2) := by
  unfold start
  refine ensures_get_bind (ensures_modify_bind ?_)
  cases hp : d.places.find? item with
  | some place =>
    exact ensures_bind_of_run (placeOf_of_some hp)
      (ensures_modify_bind (ensures_pure ⟨d, .refl hd, hn, rfl, rfl⟩))
  | none =>
    refine ensures_bind_of_run (placeOf_of_none hp) (ensures_modify_bind (ensures_pure ?_))
    have q : d.Quiet (d.reserved item) := .of_same rfl rfl rfl
    exact ⟨d.reserved item, q.upheld hd, hn, rfl, rfl⟩

/-- **The element of an item** is built with all that it is based on, or with tasks for it. -/
theorem upheld_elementFor (bound : Nat) (item : ItemId) (parent : Option ElementId)
    (hd : d.Reciprocal) : (b.elementFor bound item parent).Ensures d (fun _ => True)
      fun id d' => d.Upheld none d' ∧ d'.idOf? item = some id := by
  induction bound generalizing item parent d with
  | zero => exact ensures_throw trivial
  | succ bound ih =>
    unfold elementFor
    refine ensures_get_bind ?_
    cases hp : d.progress.find? item with
    | some progress =>
      have hid := idOf?_of_progress hp
      cases parent with
      | none => exact ensures_pure ⟨.refl hd, hid⟩
      | some p =>
        have q : d.Quiet (d.modifyElement progress.id fun e => { e with parent := some p }) :=
          quiet_modifyElement (.refl _)
        exact ensures_modify_bind (ensures_pure ⟨q.upheld hd, hid⟩)
    | none =>
      have hown : ∀ child owner, Upholds (b.elementFor bound child (some owner)) :=
        fun child owner d₁ h₁ => (ih child (some owner) h₁).mono fun _ _ h => h.1
      refine (ensures_begins hd hp parent).bind fun r d₁ hr => ?_
      obtain ⟨id, place⟩ := r
      obtain ⟨d₀, h₀, hn, rfl, rfl⟩ := hr
      have hkind : (b.begunElement item parent place).data.kind ≠ .compound := fun hk => by cases hk
      have hbegun := h₀.reciprocal.begun hn hkind
      have hu : Unset (d₀.begun item (b.begunElement item parent place)) item d₀.nextId :=
        ⟨by rw [find?_progress_begun, if_pos rfl],
          by rw [element_begun, if_pos rfl]; exact hkind⟩
      refine (upheld_build hown hbegun hu).bind fun _ d₂ h₂ => ensures_modify_bind (ensures_pure ?_)
      have hs := h₂.aside.progress item _ hu.started
      exact ⟨h₀.trans ⟨h₂.reciprocal.done hs, h₂.aside.done hkind hn⟩,
        idOf?_of_progress (p := .finished d₀.nextId) (OrderedMap.find?_insert_self _ _ _)⟩

/-! ### Tasks -/

theorem Idle.aside (h : Idle d) {d' : Draft} (ha : d.Aside none d') : Idle d' := fun item p hp => by
  cases hd : d.progress.find? item with
  | none => exact ha.finished item p hd hp
  | some q =>
    have hq := ha.progress item q hd
    rw [hp] at hq
    cases hq
    exact h item p hd

/-- A task is performed once it is out of the queue. -/
theorem reciprocal_perform (hd : d.Reciprocal) (hi : Idle d) (task : Task)
    (hopen : ∀ q, task.base? = some q → (d.element q.1).data.bases[q.2]? = some none ∧
      q ∉ d.dueBases) :
    (b.perform task).Ensures d (fun _ => True) fun _ d' => d'.Reciprocal ∧ Idle d' := by
  cases task with
  | ensure item =>
    exact (upheld_elementFor _ item none hd).bind fun _ d₁ h₁ =>
      ensures_pure ⟨h₁.1.reciprocal, hi.aside h₁.1.aside⟩
  | wire owner l item =>
    refine (upheld_elementFor _ item none hd).bind fun target d₁ h₁ => ensures_modify ?_
    obtain ⟨h₁, hid⟩ := h₁
    have hi₁ := hi.aside h₁.aside
    refine ⟨?_, by unfold Idle; rw [progress_wire]; exact hi₁⟩
    by_cases hl : ∀ index, l ≠ .base index
    · exact (quiet_wire hl).reciprocal h₁.reciprocal
    · -- the base is as open as it was, as only new elements may have been given tasks
      push Not at hl
      obtain ⟨index, rfl⟩ := hl
      obtain ⟨hget, hdue⟩ := hopen (owner, index) rfl
      have hlt : owner.index < d.elements.size := lt_of_base fun hnil => by
        rw [hnil] at hget
        cases hget
      refine h₁.reciprocal.wire ?_ (fun hmem => ?_) (hi₁.finished hid)
      · rw [(h₁.aside.data owner hlt (by simp)).2]
        exact hget
      · obtain ⟨new, hnew, hfresh⟩ := h₁.aside.dueBases
        rw [hnew] at hmem
        rcases List.mem_append.1 hmem with hmem | hmem
        · exact hdue hmem
        · exact absurd ((hfresh _ hmem).resolve_right (by simp)) (Nat.not_le_of_lt hlt)

theorem reciprocal_performAll (bound : Nat) (hd : d.Reciprocal) (hi : Idle d) :
    (b.performAll bound).Ensures d (fun _ => True) fun _ d' => d'.Reciprocal := by
  induction bound generalizing d with
  | zero => exact ensures_pure hd
  | succ bound ih =>
    unfold performAll
    refine ensures_get_bind ?_
    cases ht : d.tasks with
    | nil => exact ensures_pure hd
    | cons task rest =>
      obtain ⟨hpop, hopen⟩ := hd.pop ht
      refine ensures_modify_bind ?_
      exact (reciprocal_perform hpop hi task hopen).bind fun _ d₁ h₁ => ih h₁.1 h₁.2

/-- **Bases and what is based on them agree** once a tree is assembled. -/
theorem reciprocal_assemble :
    b.assemble.Ensures {} (fun _ => True) fun _ d' => d'.Reciprocal := by
  have hempty : Reciprocal {} := {
    progress := fun _ _ hp => by cases hp
    finished := fun x y hy => by
      rw [element_of_size_le (Nat.zero_le _)] at hy
      cases hy
    counts := fun x y hk => by
      rw [element_of_size_le (Nat.zero_le _)] at hk
      cases hk
    opened := fun _ hq => by cases hq
    once := .nil }
  have hidle : Idle {} := fun _ _ hp => by cases hp
  unfold assemble
  refine (upheld_elementFor _ ItemTree.root none hempty).bind fun root d₁ h₁ => ?_
  exact (reciprocal_performAll _ h₁.1.reciprocal (hidle.aside h₁.1.aside)).bind
    fun _ d₂ h₂ => ensures_pure h₂

end Blueprint
end Schemata
