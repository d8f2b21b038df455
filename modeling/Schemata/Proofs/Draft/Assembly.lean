import Schemata.Proofs.Draft.Requests

/-! Building the whole tree.

Between tasks no element is half built. Each task that is performed leaves less to
do, so that the queue is empty in the end, and every item that was asked for has
its element, with nothing about it left open. -/
namespace Schemata.Blueprint

open Draft Build

variable {b : Blueprint} {P : ItemId → Prop} {due : List Task} {d d' : Draft}
  {mine : Option ElementId}

/-! ### Between tasks -/

/-- No element is half built. -/
def Idle (d : Draft) : Prop := ∀ item p, d.progress.find? item = some p → p = .finished p.id

theorem Idle.grows (h : Idle d) (g : d.Grows none d') : Idle d' := fun item p hp => by
  cases hd : d.progress.find? item with
  | none => exact (g.finished item p hd hp).resolve_right (by simp)
  | some q =>
    obtain ⟨q', hq', _, heq⟩ := g.progress item q hd
    rw [hp] at hq'
    cases hq'
    rw [heq (by simp)]
    exact h item q hd

theorem Idle.finished (h : Idle d) {item : ItemId} {id : ElementId} (hi : d.idOf? item = some id) :
    d.progress.find? item = some (.finished id) := by
  obtain ⟨p, hp, rfl⟩ := Option.map_eq_some_iff.1 hi
  rw [hp, h item p hp]
  rfl

/-- What a task or some of them leave. -/
structure Performed (b : Blueprint) (P : ItemId → Prop) (d d' : Draft) : Prop where
  sound : b.Sound P [] d'
  idle : Idle d'
  kept : ∀ item id, d.idOf? item = some id → d'.idOf? item = some id
  outstanding : b.outstanding d' ≤ b.outstanding d

theorem unbuilt_lt (b : Blueprint) (d : Draft) : (b.unbuilt d).length < b.tree.size + 1 := by
  have hids : b.tree.ids.length = b.tree.size := by simp [ItemTree.ids]
  exact Nat.lt_succ_of_le (hids ▸ List.length_filter_le _ _)

theorem ensures_elementOf (hb : b.Closed P) (h : b.Sound P due d) {item : ItemId} (hP : P item) :
    (b.elementOf item).Ensures d (b.Fails P) fun id d' => b.Asked P due item none d id d' :=
  ensures_elementFor hb _ item none d h hP (unbuilt_lt b d) fun p hp => by cases hp

theorem linkAt_wire (d : Draft) {owner : ElementId} (hlt : owner.index < d.elements.size) (l : Link)
    (target : ElementId) : ((d.wire owner l target).element owner).data.linkAt l ≠ some none := by
  have hpointed : ((d.pointed owner l target).element owner).data.linkAt l ≠ some none := by
    rw [show (d.pointed owner l target).element owner = _ from element_modifyElement_self d hlt _,
      ElementData.linkAt_setLink]
    split
    · simp
    · next h =>
      intro hnone
      exact h ⟨rfl, by rw [hnone]; rfl⟩
  rcases d.wire_eq owner l target with hw | hw <;> rw [hw]
  · exact hpointed
  · unfold noted
    rw [element_modifyElement]
    split
    · refine fun hnone => hpointed ?_
      rw [← hnone, ElementData.linkAt_noteDerived]
    · exact hpointed

theorem ensures_perform (hb : b.Closed P) {task : Task} (h : b.Sound P [task] d) (hi : Idle d) :
    (b.perform task).Ensures d (b.Fails P) fun _ d' => b.Performed P d d' := by
  have hP : P task.item := h.tasks task (by simp)
  cases task with
  | wire owner l item =>
    refine (ensures_elementOf hb h hP).bind fun target d₁ hasked => ?_
    have h₁ := hasked.advance.sound
    have hi₁ := hi.grows hasked.advance.grows
    obtain ⟨hlt, x, hx, rfl⟩ := h₁.wires owner l item (by simp)
    have ht := hi₁.finished hasked.idOf?
    have hwire : b.Advance P _ none 0 d₁ (d₁.wire owner l target) :=
      advance_wire h₁ hlt hx ht fun i hs => by cases hi₁ i _ hs
    refine ensures_modify ⟨hwire.sound.discharge (linkAt_wire d₁ hlt l target),
      hi₁.grows hwire.grows, fun i j hij => (hasked.advance.grows.trans hwire.grows).idOf? hij,
      (hasked.advance.trans hwire).outstanding⟩
  | ensure item =>
    refine (ensures_elementOf hb h hP).bind fun id d₁ hasked => ?_
    refine ensures_pure ⟨hasked.advance.sound.discharge ?_, hi.grows hasked.advance.grows,
      fun i j hij => hasked.advance.grows.idOf? hij, hasked.advance.outstanding⟩
    have hid : d₁.idOf? item = some id := hasked.idOf?
    show (d₁.idOf? item).isSome
    rw [hid]
    rfl

/-! ### The queue -/

/-- The queue is worked off. -/
theorem ensures_performAll (hb : b.Closed P) (bound : Nat) (d : Draft) (h : b.Sound P [] d)
    (hi : Idle d) (hbound : b.outstanding d ≤ bound) :
    (b.performAll bound).Ensures d (b.Fails P) fun _ d' =>
      b.Performed P d d' ∧ d'.tasks = [] := by
  induction bound generalizing d with
  | zero =>
    refine ensures_pure ⟨⟨h, hi, fun _ _ hid => hid, Nat.le_refl _⟩, ?_⟩
    unfold outstanding at hbound
    exact List.length_eq_zero_iff.1 (by omega)
  | succ bound ih =>
    unfold performAll
    refine ensures_get_bind ?_
    cases ht : d.tasks with
    | nil => exact ensures_pure ⟨⟨h, hi, fun _ _ hid => hid, Nat.le_refl _⟩, ht⟩
    | cons task rest =>
      have hpop := outstanding_pop (b := b) ht
      refine ensures_modify_bind ((ensures_perform hb (h.pop ht) hi).bind fun _ d₁ h₁ => ?_)
      have hle := h₁.outstanding
      refine (ih d₁ h₁.sound h₁.idle (by omega)).mono fun _ d₂ h₂ => ⟨?_, h₂.2⟩
      exact ⟨h₂.1.sound, h₂.1.idle, fun item id hid => h₂.1.kept item id (h₁.kept item id hid),
        Nat.le_trans h₂.1.outstanding (by omega)⟩

theorem sound_empty (b : Blueprint) (P : ItemId → Prop) : b.Sound P [] {} where
  indexed := {
    progress := fun _ _ hp => by cases hp
    element := fun _ hid => absurd hid (Nat.not_lt_zero _)
    place := fun _ hid => absurd hid (Nat.not_lt_zero _)
    places := .refl _
    filled := fun _ _ hp => by cases hp
    valueFilled := fun _ _ hp => by cases hp
    narrowed := fun _ _ hp => by cases hp
    types := fun place info hp => absurd (TypeInfoArena.index_lt_of_get? hp) (Nat.not_lt_zero _)
    mentioned := fun _ x hx => by
      rw [element_of_size_le (Nat.zero_le _)] at hx
      cases hx }
  head _ hid := absurd hid (Nat.not_lt_zero _)
  valuePlaces _ _ hp := by cases hp
  placed _ _ hp := by cases hp
  asked _ _ hid := by cases hid
  tasks _ ht := by cases ht
  wires _ _ _ ht := by cases ht
  parents _ p hp := by
    rw [element_of_size_le (Nat.zero_le _)] at hp
    cases hp
  described _ _ hi := by cases hi

/-! ### The whole tree -/

/-- All that was asked for is there. -/
structure Assembled (b : Blueprint) (P : ItemId → Prop) (root : ElementId) (d : Draft) : Prop where
  sound : b.Sound P [] d
  idle : Idle d
  tasks : d.tasks = []
  root : d.idOf? ItemTree.root = some root

/-- **Assembling a tree.** Either an item that is asked for fails by itself, or all elements that
are asked for are there, with nothing left to do. -/
theorem ensures_assemble (hb : b.Closed P) :
    b.assemble.Ensures {} (b.Fails P) fun root d => b.Assembled P root d := by
  have hstart := sound_empty b P
  have hidle : Idle {} := fun _ _ hp => by cases hp
  have hall : b.unbuilt {} = b.tree.ids := List.filter_eq_self.2 fun _ _ => rfl
  have htotal : b.outstanding {} = b.taskBound := by
    rw [taskBound_eq, outstanding, hall]
    exact Nat.zero_add _
  unfold assemble
  refine (ensures_elementOf hb hstart hb.root).bind fun root d₁ hasked => ?_
  have hle := hasked.advance.outstanding
  refine (ensures_performAll hb _ d₁ hasked.advance.sound (hidle.grows hasked.advance.grows)
    (by omega)).bind fun _ d₂ hstep => ?_
  exact ensures_pure ⟨hstep.1.sound, hstep.1.idle, hstep.2, hstep.1.kept _ _ hasked.idOf?⟩

end Schemata.Blueprint
