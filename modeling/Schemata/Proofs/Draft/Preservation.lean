import Schemata.Proofs.Draft.Stability
import Schemata.Proofs.Draft.Wiring

/-! Every change keeps what holds at every step.

`Sound` survives each change that building makes to a draft. `Advance` adds that
the draft has only grown, and bounds what is left to do. -/
namespace Schemata.Blueprint

open Draft

variable {b : Blueprint} {P : ItemId → Prop} {due : List Task} {mine : Option ElementId}
  {d d' : Draft}

/-! ### Changes that leave elements and tasks alone -/

/-- A change to places and types only. -/
theorem Sound.of_elements_eq (h : b.Sound P due d) (hi : d'.Indexed) (g : d.Grows mine d')
    (helements : d'.elements = d.elements) (hprogress : d'.progress = d.progress)
    (htasks : d'.tasks = d.tasks)
    (hvalue : ∀ item place, d'.valuePlaces.find? item = some place →
      (b.tree.item item).kind = some .simple)
    (hplace : ∀ item place, d'.places.find? item = some place → P item) : b.Sound P due d' := by
  have hdraft : ∀ id, d'.draftElement id = d.draftElement id := fun id => by
    unfold draftElement
    rw [helements]
  have helement : ∀ id, d'.element id = d.element id := fun id => by
    unfold element
    rw [hdraft]
  have hitem : ∀ id, d'.itemOf id = d.itemOf id := fun id => by
    unfold itemOf
    rw [hdraft]
  refine ⟨hi, fun id hid => ?_, hvalue, hplace, fun item id hid => ?_, ?_, ?_, fun id p hp => ?_,
    fun item id hid => ?_⟩
  · rw [helement, hitem]
    exact h.head id (helements ▸ hid)
  · unfold idOf? at hid
    rw [hprogress] at hid
    exact h.asked item id hid
  · rw [htasks]
    exact h.tasks
  · rw [htasks, helements]
    intro owner l item hw
    rw [hitem]
    exact h.wires owner l item hw
  · rw [helement] at hp
    rw [hitem, hitem]
    exact h.parents id p hp
  · rw [hprogress] at hid
    exact (h.described item id hid).mono g (by unfold Untouched; rw [helement])

theorem Sound.reserved (h : b.Sound P due d) {item : ItemId} (hP : P item)
    (hn : d.places.find? item = none) : b.Sound P due (d.reserved item) := by
  refine h.of_elements_eq (h.indexed.reserved hn) (grows_reserved none hn) rfl rfl rfl h.valuePlaces
    fun i place hp => ?_
  replace hp : (d.places.insert item d.typeInfos.nextId).find? i = some place := hp
  rw [OrderedMap.find?_insert] at hp
  split at hp
  · next hi => exact hi ▸ hP
  · exact h.placed i place hp

theorem Sound.valueReserved (h : b.Sound P due d) {item : ItemId}
    (hn : d.valuePlaces.find? item = none) (hk : (b.tree.item item).kind = some .simple) :
    b.Sound P due (d.valueReserved item) := by
  refine h.of_elements_eq (h.indexed.valueReserved hn) (grows_valueReserved none hn) rfl rfl rfl
    (fun i place hp => ?_) h.placed
  replace hp : (d.valuePlaces.insert item d.typeInfos.nextId).find? i = some place := hp
  rw [OrderedMap.find?_insert] at hp
  split at hp
  · next hi =>
    rw [hi]
    exact hk
  · exact h.valuePlaces i place hp

theorem Sound.fill (h : b.Sound P due d) {item : ItemId} {id : ElementId} {place : TypeInfoId}
    (hi : d.progress.find? item = some (.started id)) (hp : d.IsPlaceOf item place)
    (hv : d.typeInfos.get? place = none) (hn : d.narrowings.find? place = none) {info : TypeInfo}
    (hm : ∀ q ∈ info.shape.mentioned, q.index < d.typeInfos.size) :
    b.Sound P due (d.fill place info) :=
  h.of_elements_eq (h.indexed.fill (by rw [idOf?_of_progress hi]; rfl) hp hn hm)
    (grows_fill h.indexed hi hp hv info) rfl rfl rfl h.valuePlaces h.placed

theorem Sound.narrowedAt (h : b.Sound P due d) {item : ItemId} {id : ElementId}
    {place : TypeInfoId} {n : Narrowing} (hi : d.progress.find? item = some (.started id))
    (hp : d.valuePlaces.find? item = some place) (hv : d.typeInfos.get? place = none)
    (hn : d.narrowings.find? place = none) (hs : n.source.index < d.typeInfos.size) :
    b.Sound P due (d.narrowedAt place n) :=
  h.of_elements_eq (h.indexed.narrowedAt (by rw [idOf?_of_progress hi]; rfl) hp hv hs)
    (grows_narrowedAt h.indexed hi hp hn n) rfl rfl rfl h.valuePlaces h.placed

/-! ### Changes to one element -/

/-- A change to an element that keeps its head, and leaves the element alike or being built. -/
theorem Sound.modifyElement (h : b.Sound P due d) {id : ElementId}
    {f : Element (Option ElementId) → Element (Option ElementId)} (hf : KeepsHead f)
    (hm : ∀ x ∈ (f (d.element id)).mentioned, x.index < d.elements.size)
    (g : d.Grows mine (d.modifyElement id f))
    (hd : ∀ item, d.progress.find? item = some (.finished id) →
      b.Described due (d.modifyElement id f) item id) : b.Sound P due (d.modifyElement id f) where
  indexed := h.indexed.modifyElement hf.typeInfo hm
  head j hj := by
    rw [size_modifyElement] at hj
    rw [itemOf_modifyElement, element_modifyElement]
    split
    · rw [hf.name, hf.isDefinition, hf.location, hf.metadata]
      exact h.head j hj
    · exact h.head j hj
  valuePlaces := h.valuePlaces
  placed := h.placed
  asked := h.asked
  tasks := h.tasks
  wires owner l item hw := by
    rw [size_modifyElement, itemOf_modifyElement]
    exact h.wires owner l item hw
  parents j p hp := by
    rw [itemOf_modifyElement, itemOf_modifyElement]
    rw [element_modifyElement] at hp
    split at hp
    · rw [hf.parent] at hp
      exact h.parents j p hp
    · exact h.parents j p hp
  described item j hj := by
    by_cases hji : j = id
    · subst hji
      exact hd item hj
    · exact (h.described item j hj).mono g (untouched_modifyElement hji f)

/-- A change to the element that is being built. -/
theorem Sound.modifyOwn (h : b.Sound P due d) {item : ItemId} {id : ElementId}
    (hi : d.progress.find? item = some (.started id))
    {f : Element (Option ElementId) → Element (Option ElementId)} (hf : KeepsHead f)
    (hm : ∀ x ∈ (f (d.element id)).mentioned, x.index < d.elements.size) :
    b.Sound P due (d.modifyElement id f) := by
  have g : d.Grows (some id) (d.modifyElement id f) := grows_modifyElement hf fun _ _ => rfl
  refine h.modifyElement hf hm g fun i hfin => ?_
  cases h.indexed.progress_unique hi hfin rfl

theorem Sound.adopted (h : b.Sound P due d) {item : ItemId} {id parent : ElementId}
    (hi : d.idOf? item = some id) (hlt : parent.index < d.elements.size)
    (hp : item ∈ b.owned (d.itemOf parent)) : b.Sound P due (d.adopted id parent) where
  indexed := h.indexed.adopted hlt
  head j hj := by
    replace hj : j.index < (d.modifyElement id _).elements.size := hj
    rw [size_modifyElement] at hj
    unfold Draft.adopted
    rw [itemOf_modifyElement, element_modifyElement]
    split
    · exact h.head j hj
    · exact h.head j hj
  valuePlaces := h.valuePlaces
  placed := h.placed
  asked := h.asked
  tasks := h.tasks
  wires owner l i hw := by
    unfold Draft.adopted
    rw [size_modifyElement, itemOf_modifyElement]
    exact h.wires owner l i hw
  parents j p hjp := by
    unfold Draft.adopted at hjp ⊢
    rw [itemOf_modifyElement, itemOf_modifyElement]
    rw [element_modifyElement] at hjp
    split at hjp
    · next hj =>
      cases hjp
      rw [hj.1, h.indexed.itemOf_of_idOf? hi]
      exact hp
    · exact h.parents j p hjp
  described i j hj := (h.described i j hj).mono (grows_adopted none d id parent)
    (untouched_adopted d id parent j)

/-! ### Tasks -/

/-- A link that was open has its task among the waiting ones still. -/
theorem Linked.of_tasks {due' tasks : List Task} {id : ElementId} {l : Link} {x : ItemId}
    (h : b.Linked due d id l x)
    (ht : (d.element id).data.linkAt l = some none → .wire id l (b.standIn x) ∈ due ++ d.tasks →
      .wire id l (b.standIn x) ∈ due' ++ tasks) : b.Linked due' { d with tasks } id l x := by
  have helement : ({ d with tasks } : Draft).element id = d.element id := rfl
  unfold Linked at h ⊢
  rw [helement]
  cases hlink : (d.element id).data.linkAt l with
  | none =>
    rw [hlink] at h
    exact h
  | some found =>
    rw [hlink] at h
    cases found with
    | none => exact ht hlink h
    | some target => exact h

/-- A source that was waiting is so still, or has its element by now. -/
theorem Shaped.of_tasks {due' tasks : List Task} {item : ItemId} {e : Element (Option ElementId)}
    {info : TypeInfo} (h : b.Shaped due d item e info)
    (ht : ∀ x, .ensure x ∈ due ++ d.tasks → (d.idOf? x).isSome ∨ .ensure x ∈ due' ++ tasks) :
    b.Shaped due' { d with tasks } item e info :=
  ⟨h.kind, h.extensions, h.definitions, h.members, h.names, h.links, h.owned, h.typed, fun hk => by
    obtain ⟨place, hp, hv⟩ := h.valued hk
    refine ⟨place, hp, ?_⟩
    unfold Valued at hv ⊢
    split at hv
    · exact hv
    · obtain ⟨source, sourcePlace, hs, hsp, he, hn⟩ := hv
      exact ⟨source, sourcePlace, hs, hsp, he.elim .inl (ht source), hn⟩, h.valueName⟩

theorem Sound.enqueue (h : b.Sound P due d) {task : Task} (hp : P task.item)
    (hw : ∀ owner l item, task = .wire owner l item → owner.index < d.elements.size ∧
      ∃ x, b.linked? (d.itemOf owner) l = some x ∧ b.standIn x = item) :
    b.Sound P due (d.enqueue task) where
  indexed := h.indexed.enqueue task
  head := h.head
  valuePlaces := h.valuePlaces
  placed := h.placed
  asked := h.asked
  tasks t ht := by
    rcases List.mem_append.1 ht with ht | ht
    · exact h.tasks t (List.mem_append_left _ ht)
    · rcases List.mem_append.1 ht with ht | ht
      · exact h.tasks t (List.mem_append_right _ ht)
      · rw [List.mem_singleton.1 ht]
        exact hp
  wires owner l item ht := by
    rcases List.mem_append.1 ht with ht | ht
    · exact h.wires owner l item (List.mem_append_left _ ht)
    · rcases List.mem_append.1 ht with ht | ht
      · exact h.wires owner l item (List.mem_append_right _ ht)
      · exact hw owner l item (List.mem_singleton.1 ht).symm
  parents := h.parents
  described item id hi :=
    (h.described item id hi).mono (grows_enqueue none d task) rfl

/-- The first task is taken from the queue. -/
theorem Sound.pop (h : b.Sound P [] d) {task : Task} {rest : List Task}
    (ht : d.tasks = task :: rest) : b.Sound P [task] { d with tasks := rest } := by
  have hsame : [] ++ d.tasks = [task] ++ rest := ht
  refine ⟨⟨h.indexed.progress, h.indexed.element, h.indexed.place, h.indexed.places,
    h.indexed.filled, h.indexed.valueFilled, h.indexed.narrowed, h.indexed.types,
    h.indexed.mentioned⟩, h.head, h.valuePlaces, h.placed, h.asked,
    fun t hmem => h.tasks t (hsame ▸ hmem),
    fun owner l item hmem => h.wires owner l item (hsame ▸ hmem), h.parents,
    fun item id hi => ?_⟩
  have hd := h.described item id hi
  obtain ⟨info, hinfo, hs⟩ := hd.shaped
  exact ⟨⟨info, hinfo, hs.of_tasks fun x hx => .inr (hsame ▸ hx)⟩,
    fun l x hx => (hd.linked l x hx).of_tasks fun _ hl => hsame ▸ hl⟩

/-- A task that has been taken from the queue leaves nothing to be done. -/
def Discharged (d : Draft) : Task → Prop
  | .wire owner l _ => (d.element owner).data.linkAt l ≠ some none
  | .ensure item => (d.idOf? item).isSome

theorem Sound.discharge {task : Task} (h : b.Sound P [task] d) (ht : Discharged d task) :
    b.Sound P [] d where
  indexed := h.indexed
  head := h.head
  valuePlaces := h.valuePlaces
  placed := h.placed
  asked := h.asked
  tasks t hmem := h.tasks t (List.mem_append_right [task] hmem)
  wires owner l item hmem := h.wires owner l item (List.mem_append_right [task] hmem)
  parents := h.parents
  described item id hi := by
    have hd := h.described item id hi
    obtain ⟨info, hinfo, hs⟩ := hd.shaped
    refine ⟨⟨info, hinfo, hs.of_tasks fun x hx => ?_⟩, fun l x hx => ?_⟩
    · rcases List.mem_cons.1 hx with rfl | hx
      · exact .inl ht
      · exact .inr hx
    · refine (hd.linked l x hx).of_tasks fun hlink hl => ?_
      rcases List.mem_cons.1 hl with rfl | hl
      · exact absurd hlink ht
      · exact hl

/-! ### Links -/

theorem alike_setLink (e : Element (Option ElementId)) (l : Link) (x : Option ElementId) :
    Alike e { e with data := e.data.setLink l x } :=
  have h := ElementData.sameParts_setLink e.data l x
  ⟨h.kind, rfl, rfl, rfl, h.members, h.definitions, h.valueName, h.links⟩

theorem alike_noteDerived (e : Element (Option ElementId)) (id : ElementId) :
    Alike e { e with data := e.data.noteDerived id } :=
  have h := ElementData.sameParts_noteDerived e.data id
  ⟨h.kind, rfl, rfl, rfl, h.members, h.definitions, h.valueName, h.links⟩

theorem element_modifyElement_self (d : Draft) {id : ElementId} (hlt : id.index < d.elements.size)
    (f : Element (Option ElementId) → Element (Option ElementId)) :
    (d.modifyElement id f).element id = f (d.element id) := by
  rw [element_modifyElement, if_pos ⟨rfl, hlt⟩]

theorem keepsHead_data (f : ElementData (Option ElementId) → ElementData (Option ElementId)) :
    KeepsHead fun e => { e with data := f e.data } :=
  ⟨fun _ => rfl, fun _ => rfl, fun _ => rfl, fun _ => rfl, fun _ => rfl, fun _ => rfl⟩

/-- A link of `owner` is pointed at the element that stands for what it leads to. -/
theorem Sound.pointed (h : b.Sound P due d) {owner target : ElementId} {l : Link} {x : ItemId}
    (hlt : owner.index < d.elements.size) (hx : b.linked? (d.itemOf owner) l = some x)
    (ht : d.idOf? (b.standIn x) = some target) (g : d.Grows mine (d.pointed owner l target)) :
    b.Sound P due (d.pointed owner l target) := by
  refine h.modifyElement (keepsHead_data fun data => data.setLink l (some target))
    (fun y hy => ?_) g fun item hi => ?_
  · rw [Element.mem_mentioned] at hy
    have hold := h.indexed.mentioned owner
    rcases hy with hy | hy | hy
    · exact hold y ((Element.mem_mentioned _ _).2 (.inl hy))
    · exact hold y ((Element.mem_mentioned _ _).2 (.inr (.inl hy)))
    · rcases ElementData.mem_named_setLink hy with hy | rfl
      · exact hold y ((Element.mem_mentioned _ _).2 (.inr (.inr hy)))
      · exact h.indexed.lt_of_idOf? ht
  · have hd := h.described item owner hi
    have hitem : d.itemOf owner = item := h.indexed.itemOf_of_idOf? (idOf?_of_progress hi)
    have helement := element_modifyElement_self d hlt
      fun e => { e with data := e.data.setLink l (some target) }
    refine hd.of_alike g (helement ▸ alike_setLink _ l _) fun l' x' hx' => ?_
    have hl := hd.linked l' x' hx'
    by_cases hll : l' = l ∧ ((d.element owner).data.linkAt l).isSome
    · obtain ⟨rfl, hsome⟩ := hll
      rw [hitem, hx'] at hx
      cases hx
      unfold Linked
      rw [show (d.modifyElement owner _).element owner = _ from helement,
        ElementData.linkAt_setLink, if_pos ⟨rfl, hsome⟩]
      exact g.idOf? ht
    · refine hl.mono g ?_
      rw [show (d.modifyElement owner _).element owner = _ from helement,
        ElementData.linkAt_setLink, if_neg hll]

/-- A finished element remembers one that is based on it. -/
theorem Sound.noted (h : b.Sound P due d) {owner target : ElementId}
    (hlt : owner.index < d.elements.size) (htarget : target.index < d.elements.size)
    (g : d.Grows mine (d.noted target owner)) : b.Sound P due (d.noted target owner) := by
  refine h.modifyElement (keepsHead_data fun data => data.noteDerived owner)
    (fun y hy => ?_) g fun item hi => ?_
  · rw [Element.mem_mentioned] at hy
    have hold := h.indexed.mentioned target
    rcases hy with hy | hy | hy
    · exact hold y ((Element.mem_mentioned _ _).2 (.inl hy))
    · exact hold y ((Element.mem_mentioned _ _).2 (.inr (.inl hy)))
    · rcases ElementData.mem_named_noteDerived hy with hy | rfl
      · exact hold y ((Element.mem_mentioned _ _).2 (.inr (.inr hy)))
      · exact hlt
  · have hd := h.described item target hi
    have helement := element_modifyElement_self d htarget
      fun e => { e with data := e.data.noteDerived owner }
    refine hd.of_alike g (helement ▸ alike_noteDerived _ owner) fun l x hx => ?_
    refine (hd.linked l x hx).mono g ?_
    rw [show (d.modifyElement target _).element target = _ from helement,
      ElementData.linkAt_noteDerived]

/-! ### Beginning and finishing an element -/

theorem Sound.begun (h : b.Sound P due d) {item : ItemId} (hn : d.progress.find? item = none)
    {e : Element (Option ElementId)} (hP : P item)
    (hp : d.places.find? item = some e.typeInfo)
    (hm : ∀ x ∈ e.mentioned, x.index < d.elements.size)
    (hhead : e.name = (b.tree.item item).effectiveName ∧
      e.isDefinition = ((b.tree.item item).role = .definition : Bool) ∧
      e.location = (b.tree.item item).location ∧ e.metadata = ∅)
    (hparent : ∀ p, e.parent = some p → item ∈ b.owned (d.itemOf p)) :
    b.Sound P due (d.begun item e) where
  indexed := h.indexed.begun hn hp hm
  head id hid := by
    rw [size_begun] at hid
    rw [itemOf_begun, element_begun]
    by_cases hnew : id = d.nextId
    · rw [if_pos hnew, if_pos hnew]
      exact hhead
    · rw [if_neg hnew, if_neg hnew]
      refine h.head id ?_
      have hne : id.index ≠ d.elements.size := fun he => hnew (by cases id; cases he; rfl)
      omega
  valuePlaces := h.valuePlaces
  placed := h.placed
  asked i id hid := by
    unfold idOf? at hid
    rw [find?_progress_begun] at hid
    split at hid
    · next hi =>
      rw [hi]
      exact hP
    · exact h.asked i id hid
  tasks := h.tasks
  wires owner l i hw := by
    obtain ⟨hlt, hx⟩ := h.wires owner l i hw
    rw [size_begun, itemOf_begun, if_neg (ne_nextId_of_lt hlt)]
    exact ⟨by omega, hx⟩
  parents id p hp := by
    rw [element_begun] at hp
    split at hp
    · next hid =>
      have hlt := hm p ((Element.mem_mentioned _ _).2 (.inl hp))
      rw [hid, itemOf_begun, itemOf_begun, if_pos rfl, if_neg (ne_nextId_of_lt hlt)]
      exact hparent p hp
    · next hold =>
      have hlt := h.indexed.mentioned id p ((Element.mem_mentioned _ _).2 (.inl hp))
      rw [itemOf_begun, itemOf_begun, if_neg (ne_nextId_of_lt hlt), if_neg hold]
      exact h.parents id p hp
  described i id hi := by
    rw [find?_progress_begun] at hi
    split at hi
    · cases hi
    · have hlt : id.index < d.elements.size := (h.indexed.progress i _ hi).1
      refine (h.described i id hi).mono (grows_begun h.indexed hn) ?_
      unfold Untouched
      rw [element_begun, if_neg (ne_nextId_of_lt hlt)]

theorem Sound.done (h : b.Sound P due d) {item : ItemId} {id : ElementId}
    (hi : d.progress.find? item = some (.started id)) (hd : b.Described due d item id) :
    b.Sound P due (d.done item id) where
  indexed := h.indexed.done (idOf?_of_progress hi)
  head := h.head
  valuePlaces := h.valuePlaces
  placed := h.placed
  asked i j hj := h.asked i j ((idOf?_done (idOf?_of_progress hi) i).symm.trans hj)
  tasks := h.tasks
  wires := h.wires
  parents := h.parents
  described i j hj := by
    rw [find?_progress_done] at hj
    split at hj
    · next he =>
      cases hj
      rw [he]
      exact hd.mono (grows_done hi) rfl
    · exact (h.described i j hj).mono (grows_done hi) rfl

end Schemata.Blueprint
