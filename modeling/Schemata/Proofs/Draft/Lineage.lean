import Schemata.Proofs.Draft.Assembly

/-! Bases, and what is based on them.

A compound object that becomes a base remembers the object that is based on it,
once for each time that it is a base of it (`Reciprocal`). A base is pointed at
when it is finished, immediately or by a task, and only once: while a link is open
there is one task for it at most, and no task for any other link. Data is set while
nothing can be based on an element yet. -/
namespace Schemata

namespace ElementData

variable {link : Type} {data data' : ElementData link}

/-- What an object is based on. -/
def bases : ElementData link → List link
  | compound _ _ bases _ => bases
  | _ => []

/-- What is based on an object. -/
def derived : ElementData link → List ElementId
  | compound _ _ _ derived => derived
  | _ => []

theorem bases_of_kind (h : data.kind ≠ .compound) : data.bases = [] := by
  cases data with
  | compound => exact absurd rfl h
  | _ => rfl

theorem derived_of_kind (h : data.kind ≠ .compound) : data.derived = [] := by
  cases data with
  | compound => exact absurd rfl h
  | _ => rfl

theorem kind_of_mem_bases {x : link} (h : x ∈ data.bases) : data.kind = .compound := by
  by_contra hk
  rw [bases_of_kind hk] at h
  cases h

theorem bases_setLink (index : Nat) (x : link) :
    (data.setLink (.base index) x).bases = data.bases.set index x := by
  cases data <;> rfl

theorem derived_setLink (l : Link) (x : link) : (data.setLink l x).derived = data.derived := by
  cases data <;> cases l <;> rfl

theorem bases_noteDerived (id : ElementId) : (data.noteDerived id).bases = data.bases := by
  cases data <;> rfl

theorem derived_noteDerived (h : data.kind = .compound) (id : ElementId) :
    (data.noteDerived id).derived = data.derived ++ [id] := by
  cases data with
  | compound => rfl
  | _ => cases h

/-- Alike in what an object is based on and in what is based on it. -/
structure SameLineage (data data' : ElementData link) : Prop where
  compound : data'.kind = .compound ↔ data.kind = .compound
  bases : data'.bases = data.bases
  derived : data'.derived = data.derived

theorem SameLineage.refl (data : ElementData link) : data.SameLineage data :=
  ⟨Iff.rfl, rfl, rfl⟩

theorem SameLineage.of_kind (h : data.kind ≠ .compound) (h' : data'.kind ≠ .compound) :
    data.SameLineage data' :=
  ⟨iff_of_false h' h, (bases_of_kind h').trans (bases_of_kind h).symm,
    (derived_of_kind h').trans (derived_of_kind h).symm⟩

theorem sameLineage_setLink {l : Link} (h : ∀ index, l ≠ .base index) (x : link) :
    data.SameLineage (data.setLink l x) := by
  refine ⟨by rw [(data.sameParts_setLink l x).kind], ?_, derived_setLink l x⟩
  cases l with
  | base index => exact absurd rfl (h index)
  | _ => cases data <;> rfl

end ElementData

/-- The base that a task will point at, if it is for one. -/
def Task.base? : Task → Option (ElementId × Nat)
  | .wire owner (.base index) _ => some (owner, index)
  | _ => none

namespace Draft

open ElementData

variable {d d' d'' : Draft} {mine : Option ElementId} {item : ItemId} {id owner target : ElementId}
  {index : Nat}

/-- The bases that tasks are waiting for. -/
def dueBases (d : Draft) : List (ElementId × Nat) := d.tasks.filterMap Task.base?

/-! ### The invariant -/

/-- Every base is finished and remembers what is based on it. The bases that tasks are waiting for
are open, and no two tasks wait for the same. -/
structure Reciprocal (d : Draft) : Prop where
  progress : ∀ item p, d.progress.find? item = some p →
    p.id.index < d.elements.size ∧ d.itemOf p.id = item
  finished : ∀ x y, some y ∈ (d.element x).data.bases →
    ∃ item, d.progress.find? item = some (.finished y)
  counts : ∀ x y, (d.element y).data.kind = .compound →
    (d.element y).data.derived.count x = (d.element x).data.bases.count (some y)
  opened : ∀ q ∈ d.dueBases, (d.element q.1).data.bases[q.2]? = some none
  once : d.dueBases.Nodup

/-- An element that is being built is no base of anything. -/
theorem Reciprocal.not_mem_bases (h : d.Reciprocal)
    (hs : d.progress.find? item = some (.started id)) (x : ElementId) :
    some id ∉ (d.element x).data.bases := fun hmem => by
  obtain ⟨i, hi⟩ := h.finished x id hmem
  obtain rfl : item = i := (h.progress item _ hs).2.symm.trans (h.progress i _ hi).2
  rw [hs] at hi
  cases hi

theorem lt_of_base (h : (d.element id).data.bases ≠ []) : id.index < d.elements.size := by
  by_contra hn
  rw [element_of_size_le (Nat.le_of_not_lt hn)] at h
  exact h rfl

/-- Nothing about bases changes. -/
structure Quiet (d d' : Draft) : Prop where
  size : d'.elements.size = d.elements.size
  itemOf : ∀ id, d'.itemOf id = d.itemOf id
  data : ∀ id, (d.element id).data.SameLineage (d'.element id).data
  progress : d'.progress = d.progress
  dueBases : d'.dueBases = d.dueBases

theorem Quiet.reciprocal (q : d.Quiet d') (h : d.Reciprocal) : d'.Reciprocal where
  progress i p hp := by
    rw [q.size, q.itemOf]
    exact h.progress i p (q.progress ▸ hp)
  finished x y hy := by
    rw [(q.data x).bases] at hy
    rw [q.progress]
    exact h.finished x y hy
  counts x y hk := by
    rw [(q.data y).derived, (q.data x).bases]
    exact h.counts x y ((q.data y).compound.1 hk)
  opened p hp := by
    rw [q.dueBases] at hp
    rw [(q.data p.1).bases]
    exact h.opened p hp
  once := q.dueBases ▸ h.once

theorem quiet_modifyElement {f : Element (Option ElementId) → Element (Option ElementId)}
    (hf : (d.element id).data.SameLineage (f (d.element id)).data) :
    d.Quiet (d.modifyElement id f) where
  size := size_modifyElement d id f
  itemOf j := itemOf_modifyElement d id j f
  data j := by
    rw [element_modifyElement]
    split
    · next hj => exact hj.1 ▸ hf
    · exact .refl _
  progress := rfl
  dueBases := rfl

/-- Only elements, progress and tasks matter. -/
theorem Quiet.of_same (he : d'.elements = d.elements) (hp : d'.progress = d.progress)
    (ht : d'.tasks = d.tasks) : d.Quiet d' where
  size := by rw [he]
  itemOf id := by
    unfold Draft.itemOf draftElement
    rw [he]
  data id := by
    unfold element draftElement
    rw [he]
    exact .refl _
  progress := hp
  dueBases := by
    unfold Draft.dueBases
    rw [ht]

theorem quiet_enqueue {task : Task} (h : task.base? = none) : d.Quiet (d.enqueue task) where
  size := rfl
  itemOf _ := rfl
  data _ := .refl _
  progress := rfl
  dueBases := by
    unfold Draft.dueBases enqueue
    rw [List.filterMap_append, List.filterMap_cons, h]
    exact List.append_nil _

theorem quiet_wire {l : Link} (h : ∀ index, l ≠ .base index) : d.Quiet (d.wire owner l target) := by
  rw [d.wire_other (.inr h)]
  exact quiet_modifyElement (sameLineage_setLink h _)

/-- Data that is set while an object has no data yet. -/
theorem quiet_settle {place : TypeInfoId} {info : TypeInfo}
    {data : ElementData (Option ElementId)} (hk : (d.element id).data.kind ≠ .compound)
    (hdata : data.kind ≠ .compound) : d.Quiet ((d.fill place info).setData id data) := by
  have hset : (d.fill place info).Quiet ((d.fill place info).setData id data) :=
    quiet_modifyElement (.of_kind hk hdata)
  exact ⟨hset.size, hset.itemOf, hset.data, rfl, rfl⟩

/-! ### What others leave alone -/

/-- What building leaves of what was there: elements other than `mine` keep what they are based on,
and tasks are added for the bases of new ones and of `mine` only. -/
structure Aside (mine : Option ElementId) (d d' : Draft) : Prop where
  size : d.elements.size ≤ d'.elements.size
  data : ∀ x, x.index < d.elements.size → some x ≠ mine →
    ((d'.element x).data.kind = .compound ↔ (d.element x).data.kind = .compound) ∧
      (d'.element x).data.bases = (d.element x).data.bases
  progress : ∀ item p, d.progress.find? item = some p → d'.progress.find? item = some p
  finished : ∀ item p, d.progress.find? item = none → d'.progress.find? item = some p →
    p = .finished p.id
  dueBases : ∃ new, d'.dueBases = d.dueBases ++ new ∧
    ∀ q ∈ new, d.elements.size ≤ q.1.index ∨ some q.1 = mine

theorem Aside.of_progress (hsize : d'.elements.size = d.elements.size)
    (hdata : ∀ x, some x ≠ mine → ((d'.element x).data.kind = .compound ↔
      (d.element x).data.kind = .compound) ∧ (d'.element x).data.bases = (d.element x).data.bases)
    (hp : d'.progress = d.progress)
    (hdue : ∃ new, d'.dueBases = d.dueBases ++ new ∧ ∀ q ∈ new, some q.1 = mine) :
    d.Aside mine d' where
  size := Nat.le_of_eq hsize.symm
  data x _ hne := hdata x hne
  progress i p hi := hp ▸ hi
  finished i p hn hi := by
    rw [hp, hn] at hi
    cases hi
  dueBases := hdue.imp fun _ hnew => ⟨hnew.1, fun q hq => .inr (hnew.2 q hq)⟩

theorem Aside.trans (h : d.Aside mine d') (h' : d'.Aside mine d'') : d.Aside mine d'' where
  size := Nat.le_trans h.size h'.size
  data x hx hne := by
    obtain ⟨hk, hb⟩ := h.data x hx hne
    obtain ⟨hk', hb'⟩ := h'.data x (Nat.lt_of_lt_of_le hx h.size) hne
    exact ⟨hk'.trans hk, hb'.trans hb⟩
  progress i p hp := h'.progress i p (h.progress i p hp)
  finished i p hn hp := by
    cases hmid : d'.progress.find? i with
    | none => exact h'.finished i p hmid hp
    | some p' =>
      have hp' := h'.progress i p' hmid
      rw [hp] at hp'
      exact h.finished i p hn (hmid.trans hp'.symm)
  dueBases := by
    obtain ⟨new, hnew, hmem⟩ := h.dueBases
    obtain ⟨new', hnew', hmem'⟩ := h'.dueBases
    refine ⟨new ++ new', by rw [hnew', hnew, List.append_assoc], fun q hq => ?_⟩
    rcases List.mem_append.1 hq with hq | hq
    · exact hmem q hq
    · exact (hmem' q hq).imp_left (Nat.le_trans h.size)

theorem Aside.weaken (h : d.Aside none d') (mine : Option ElementId) : d.Aside mine d' :=
  { h with
    data := fun x hx _ => h.data x hx (by simp)
    dueBases := by
      obtain ⟨new, hnew, hmem⟩ := h.dueBases
      exact ⟨new, hnew, fun q hq => (hmem q hq).imp_right fun he => by cases he⟩ }

theorem Quiet.aside (q : d.Quiet d') : d.Aside none d' :=
  .of_progress q.size (fun x _ => ⟨(q.data x).compound, (q.data x).bases⟩) q.progress
    ⟨[], by rw [q.dueBases, List.append_nil], by simp⟩

/-- A step has kept the invariant, and what it does not build is as before. -/
structure Upheld (mine : Option ElementId) (d d' : Draft) : Prop where
  reciprocal : d'.Reciprocal
  aside : d.Aside mine d'

theorem Quiet.upheld (q : d.Quiet d') (h : d.Reciprocal) : d.Upheld none d' :=
  ⟨q.reciprocal h, q.aside⟩

theorem Upheld.refl (h : d.Reciprocal) : d.Upheld none d :=
  (Quiet.of_same rfl rfl rfl : d.Quiet d).upheld h

theorem Upheld.trans (h : d.Upheld mine d') (h' : d'.Upheld mine d'') : d.Upheld mine d'' :=
  ⟨h'.reciprocal, h.aside.trans h'.aside⟩

theorem Upheld.weaken (h : d.Upheld none d') (mine : Option ElementId) : d.Upheld mine d' :=
  ⟨h.reciprocal, h.aside.weaken mine⟩

/-! ### Pointing at a base -/

theorem size_wire (owner : ElementId) (l : Link) (target : ElementId) :
    (d.wire owner l target).elements.size = d.elements.size := by
  rcases d.wire_eq owner l target with h | h <;> rw [h] <;> simp [pointed, noted]

theorem itemOf_wire (owner : ElementId) (l : Link) (target x : ElementId) :
    (d.wire owner l target).itemOf x = d.itemOf x := by
  rcases d.wire_eq owner l target with h | h <;> rw [h] <;> simp [pointed, noted]

theorem progress_wire (owner : ElementId) (l : Link) (target : ElementId) :
    (d.wire owner l target).progress = d.progress := by
  rcases d.wire_eq owner l target with h | h <;> rw [h] <;> rfl

theorem dueBases_wire (owner : ElementId) (l : Link) (target : ElementId) :
    (d.wire owner l target).dueBases = d.dueBases := by
  rcases d.wire_eq owner l target with h | h <;> rw [h] <;> rfl

theorem kind_wire (owner : ElementId) (l : Link) (target x : ElementId) :
    ((d.wire owner l target).element x).data.kind = (d.element x).data.kind := by
  have hpointed : ((d.pointed owner l target).element x).data.kind = (d.element x).data.kind := by
    rw [data_pointed]
    split
    · exact (ElementData.sameParts_setLink _ _ _).kind
    · rfl
  rcases d.wire_eq owner l target with h | h <;> rw [h]
  · exact hpointed
  · rw [data_noted]
    split
    · exact (ElementData.sameParts_noteDerived _ _).kind.trans hpointed
    · exact hpointed

section WireBase

variable (hk : (d.element owner).data.kind = .compound)
include hk

theorem bases_wire (index : Nat) (target x : ElementId) :
    ((d.wire owner (.base index) target).element x).data.bases =
      if x = owner then (d.element x).data.bases.set index (some target)
      else (d.element x).data.bases := by
  rw [d.wire_base hk, data_noted, data_pointed]
  split <;> split <;> simp only [bases_noteDerived, bases_setLink]

theorem derived_wire (index : Nat) (target : ElementId) {y : ElementId}
    (hy : (d.element y).data.kind = .compound) :
    ((d.wire owner (.base index) target).element y).data.derived =
      (d.element y).data.derived ++ if y = target then [owner] else [] := by
  rw [d.wire_base hk, data_noted, data_pointed]
  split <;> split <;>
    simp only [derived_noteDerived, derived_setLink, List.append_nil,
      (ElementData.sameParts_setLink _ _ _).kind, hy]

theorem aside_wire (index : Nat) (target : ElementId) :
    d.Aside (some owner) (d.wire owner (.base index) target) :=
  .of_progress (size_wire _ _ _)
    (fun x hne => ⟨by rw [kind_wire],
      by rw [bases_wire hk, if_neg fun he => hne (congrArg some he)]⟩)
    (progress_wire _ _ _) ⟨[], by rw [dueBases_wire, List.append_nil], by simp⟩

end WireBase

/-- An open base that no task is waiting for is pointed at an element that is finished. -/
theorem Reciprocal.wire (h : d.Reciprocal)
    (hopen : (d.element owner).data.bases[index]? = some none)
    (hdue : (owner, index) ∉ d.dueBases)
    (ht : d.progress.find? item = some (.finished target)) :
    (d.wire owner (.base index) target).Reciprocal := by
  obtain ⟨hindex, hget⟩ := List.getElem?_eq_some_iff.1 hopen
  have hk := kind_of_mem_bases (List.mem_of_getElem? hopen)
  refine ⟨fun i p hp => ?_, fun x y hy => ?_, fun x y hy => ?_, fun q hq => ?_, ?_⟩
  · rw [progress_wire] at hp
    rw [size_wire, itemOf_wire]
    exact h.progress i p hp
  · rw [progress_wire]
    rw [bases_wire hk] at hy
    split at hy
    · rcases List.mem_or_eq_of_mem_set hy with hy | hy
      · exact h.finished x y hy
      · cases hy
        exact ⟨item, ht⟩
    · exact h.finished x y hy
  · rw [kind_wire] at hy
    rw [derived_wire hk index target hy, List.count_append, h.counts x y hy, bases_wire hk]
    by_cases hx : x = owner
    · -- the base is one more for the owner, as the link was open
      subst hx
      rw [if_pos rfl, List.count_set hindex, hget]
      by_cases hyt : y = target
      · simp [hyt]
      · have hne : target ≠ y := fun he => hyt he.symm
        simp [hyt, hne]
    · rw [if_neg hx]
      have hne : owner ≠ x := fun he => hx he.symm
      split <;> simp [hne]
  · rw [dueBases_wire] at hq
    rw [bases_wire hk]
    split
    · next hx =>
      have hne : index ≠ q.2 := fun he => hdue (by rw [← hx, he]; exact hq)
      rw [List.getElem?_set_ne hne]
      exact h.opened q hq
    · exact h.opened q hq
  · rw [dueBases_wire]
    exact h.once

theorem dueBases_enqueue (owner : ElementId) (index : Nat) (item : ItemId) :
    (d.enqueue (.wire owner (.base index) item)).dueBases = d.dueBases ++ [(owner, index)] := by
  unfold Draft.dueBases Draft.enqueue
  rw [List.filterMap_append]
  rfl

theorem aside_enqueue (owner : ElementId) (index : Nat) (item : ItemId) :
    d.Aside (some owner) (d.enqueue (.wire owner (.base index) item)) :=
  .of_progress rfl (fun _ _ => ⟨Iff.rfl, rfl⟩) rfl
    ⟨_, dueBases_enqueue owner index item, fun q hq => by rw [List.mem_singleton.1 hq]⟩

/-- A task is put in the queue for an open base that no other is waiting for. -/
theorem Reciprocal.enqueue (h : d.Reciprocal)
    (hopen : (d.element owner).data.bases[index]? = some none)
    (hdue : (owner, index) ∉ d.dueBases) (item : ItemId) :
    (d.enqueue (.wire owner (.base index) item)).Reciprocal := by
  refine ⟨h.progress, h.finished, h.counts, fun q hq => ?_, ?_⟩
  · rw [dueBases_enqueue] at hq
    rcases List.mem_append.1 hq with hq | hq
    · exact h.opened q hq
    · rw [List.mem_singleton.1 hq]
      exact hopen
  · rw [dueBases_enqueue]
    exact List.nodup_append.2 ⟨h.once, by simp, fun p hp q hq he =>
      hdue (by rw [← List.mem_singleton.1 hq, ← he]; exact hp)⟩

/-- The first task is taken out of the queue. -/
theorem Reciprocal.pop (h : d.Reciprocal) {task : Task} {rest : List Task}
    (ht : d.tasks = task :: rest) : ({ d with tasks := rest } : Draft).Reciprocal ∧
      ∀ q, task.base? = some q → (d.element q.1).data.bases[q.2]? = some none ∧
        q ∉ ({ d with tasks := rest } : Draft).dueBases := by
  have hdue : d.dueBases = task.base?.toList ++ ({ d with tasks := rest } : Draft).dueBases := by
    unfold Draft.dueBases
    rw [ht, List.filterMap_cons]
    cases task.base? <;> rfl
  have honce := h.once
  rw [hdue] at honce
  obtain ⟨_, honce, hdisjoint⟩ := List.nodup_append.1 honce
  refine ⟨⟨h.progress, h.finished, h.counts, fun q hq => h.opened q ?_, honce⟩,
    fun q hq => ⟨?_, ?_⟩⟩
  · rw [hdue]
    exact List.mem_append_right _ hq
  · refine h.opened q ?_
    rw [hdue, hq]
    exact List.mem_append_left _ (List.mem_singleton_self q)
  · intro hmem
    exact hdisjoint q (by rw [hq]; exact List.mem_singleton_self q) q hmem rfl

/-! ### Setting the bases of an object -/

theorem data_settle {place : TypeInfoId} {info : TypeInfo} {data : ElementData (Option ElementId)}
    (hlt : id.index < d.elements.size) (x : ElementId) :
    (((d.fill place info).setData id data).element x).data =
      if x = id then data else (d.element x).data := by
  rw [setData, element_modifyElement]
  by_cases hx : x = id
  · rw [if_pos ⟨hx, hx ▸ hlt⟩, if_pos hx]
  · rw [if_neg fun he => hx he.1, if_neg hx]
    rfl

theorem aside_settle (id : ElementId) (place : TypeInfoId) (info : TypeInfo)
    (data : ElementData (Option ElementId)) :
    d.Aside (some id) ((d.fill place info).setData id data) := by
  refine .of_progress (by simp [setData, fill]) (fun x hne => ?_) rfl
    ⟨[], (List.append_nil _).symm, by simp⟩
  have hx : x ≠ id := fun he => hne (congrArg some he)
  rw [setData, element_modifyElement, if_neg fun he => hx he.1]
  exact ⟨Iff.rfl, rfl⟩

/-- All bases are open when the data of an object is set, and there are none before. -/
theorem Reciprocal.settle (h : d.Reciprocal) (hs : d.progress.find? item = some (.started id))
    (hk : (d.element id).data.kind ≠ .compound) {place : TypeInfoId} {info : TypeInfo}
    {children definitions : List ElementId} {links : List (Option ElementId)}
    (hlinks : ∀ link ∈ links, link = none) :
    ((d.fill place info).setData id (.compound children definitions links [])).Reciprocal := by
  have hlt : id.index < d.elements.size := (h.progress item _ hs).1
  have hnone : ∀ y, links.count (some y) = 0 := fun y =>
    List.count_eq_zero.2 fun hmem => by cases hlinks _ hmem
  refine ⟨fun i p hp => ?_, fun x y hy => ?_, fun x y hy => ?_, fun q hq => ?_, h.once⟩
  · obtain ⟨hp₁, hp₂⟩ := h.progress i p hp
    exact ⟨by simpa [setData, fill] using hp₁, (itemOf_modifyElement _ _ _ _).trans hp₂⟩
  · rw [data_settle hlt] at hy
    split at hy
    · cases hlinks _ hy
    · exact h.finished x y hy
  · rw [data_settle hlt] at hy ⊢
    rw [data_settle hlt]
    by_cases hy' : y = id
    · -- nothing is based on what is being built
      rw [if_pos hy', hy']
      split
      · exact (hnone id).symm
      · exact (List.count_eq_zero.2 (h.not_mem_bases hs x)).symm
    · rw [if_neg hy'] at hy ⊢
      rw [h.counts x y hy]
      split
      · next hx =>
        rw [hx, bases_of_kind hk]
        exact (hnone y).symm
      · rfl
  · have hne : q.1 ≠ id := fun he => by
      have hopened := h.opened q hq
      rw [he, bases_of_kind hk] at hopened
      cases hopened
    rw [data_settle hlt, if_neg hne]
    exact h.opened q hq

/-- Bases of an element, from some one on, are open and no tasks are waiting for them. -/
def Waiting (d : Draft) (id : ElementId) (first count : Nat) : Prop :=
  ∀ i, first ≤ i → i < count →
    (d.element id).data.bases[i]? = some none ∧ (id, i) ∉ d.dueBases

theorem Reciprocal.waiting_settle (h : d.Reciprocal) (hlt : id.index < d.elements.size)
    (hk : (d.element id).data.kind ≠ .compound) (place : TypeInfoId) (info : TypeInfo)
    (children definitions : List ElementId) {links : List (Option ElementId)}
    (hlinks : ∀ link ∈ links, link = none) :
    ((d.fill place info).setData id (.compound children definitions links [])).Waiting id 0
      links.length := by
  intro i _ hi
  refine ⟨?_, fun hdue => ?_⟩
  · rw [data_settle hlt, if_pos rfl]
    exact (List.getElem?_eq_getElem hi).trans (congrArg some (hlinks _ (List.getElem_mem hi)))
  · have hopened := h.opened (id, i) hdue
    rw [bases_of_kind hk] at hopened
    cases hopened

/-! ### Beginning and finishing an element -/

theorem sameLineage_begun {e : Element (Option ElementId)} (he : e.data.kind ≠ .compound)
    (item : ItemId) (x : ElementId) :
    (d.element x).data.SameLineage ((d.begun item e).element x).data := by
  rw [element_begun]
  split
  · next hx =>
    rw [element_of_size_le (by rw [hx]; exact Nat.le_refl _)]
    exact .of_kind (fun hk => by cases hk) he
  · exact .refl _

theorem Reciprocal.begun (h : d.Reciprocal) (hn : d.progress.find? item = none)
    {e : Element (Option ElementId)} (he : e.data.kind ≠ .compound) :
    (d.begun item e).Reciprocal := by
  have hdata := sameLineage_begun (d := d) he item
  refine ⟨fun i p hp => ?_, fun x y hy => ?_, fun x y hy => ?_, fun q hq => ?_, h.once⟩
  · rw [find?_progress_begun] at hp
    rw [size_begun, itemOf_begun]
    split at hp
    · next hi =>
      cases hp
      exact ⟨Nat.lt_succ_self _, (if_pos rfl).trans hi.symm⟩
    · obtain ⟨hlt, hitem⟩ := h.progress i p hp
      exact ⟨Nat.lt_succ_of_lt hlt, by rw [if_neg (ne_nextId_of_lt hlt), hitem]⟩
  · rw [(hdata x).bases] at hy
    obtain ⟨i, hi⟩ := h.finished x y hy
    have hne : i ≠ item := fun heq => by
      rw [heq, hn] at hi
      cases hi
    exact ⟨i, by rw [find?_progress_begun, if_neg hne]; exact hi⟩
  · rw [(hdata y).derived, (hdata x).bases]
    exact h.counts x y ((hdata y).compound.1 hy)
  · rw [(hdata q.1).bases]
    exact h.opened q hq

theorem Reciprocal.done (h : d.Reciprocal) (hs : d.progress.find? item = some (.started id)) :
    (d.done item id).Reciprocal := by
  refine ⟨fun i p hp => ?_, fun x y hy => ?_, h.counts, h.opened, h.once⟩
  · rw [find?_progress_done] at hp
    split at hp
    · next hi =>
      cases hp
      exact hi ▸ h.progress item _ hs
    · exact h.progress i p hp
  · obtain ⟨i, hi⟩ := h.finished x y hy
    have hne : i ≠ item := fun heq => by
      rw [heq, hs] at hi
      cases hi
    exact ⟨i, by rw [find?_progress_done, if_neg hne]; exact hi⟩

/-- From before an element was begun until it is finished, what was there is left alone. -/
theorem Aside.done {e : Element (Option ElementId)} (he : e.data.kind ≠ .compound)
    (hn : d.progress.find? item = none) (h : (d.begun item e).Aside (some d.nextId) d') :
    d.Aside none (d'.done item d.nextId) := by
  have hother : ∀ {i p}, d.progress.find? i = some p → i ≠ item := fun hp heq => by
    rw [heq, hn] at hp
    cases hp
  refine ⟨?_, fun x hx _ => ?_, fun i p hp => ?_, fun i p hni hp => ?_, ?_⟩
  · have := h.size
    rw [size_begun] at this
    exact Nat.le_of_succ_le this
  · have hne : some x ≠ some d.nextId := fun heq => ne_nextId_of_lt hx (Option.some.inj heq)
    obtain ⟨hk, hb⟩ := h.data x (by rw [size_begun]; exact Nat.lt_succ_of_lt hx) hne
    have hdata := sameLineage_begun (d := d) he item x
    exact ⟨hk.trans hdata.compound, hb.trans hdata.bases⟩
  · rw [find?_progress_done, if_neg (hother hp)]
    refine h.progress i p ?_
    rw [find?_progress_begun, if_neg (hother hp)]
    exact hp
  · rw [find?_progress_done] at hp
    split at hp
    · cases hp
      rfl
    · next hi =>
      refine h.finished i p ?_ hp
      rw [find?_progress_begun, if_neg hi]
      exact hni
  · obtain ⟨new, hnew, hmem⟩ := h.dueBases
    refine ⟨new, hnew, fun q hq => .inl ?_⟩
    rcases hmem q hq with hle | heq
    · rw [size_begun] at hle
      exact Nat.le_of_succ_le hle
    · rw [Option.some.inj heq]
      exact Nat.le_refl _

end Draft
end Schemata
