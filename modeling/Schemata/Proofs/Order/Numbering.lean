import Mathlib.Data.Fintype.Card
import Mathlib.Logic.Equiv.Basic
import Schemata.Proofs.Tree.Declaring

/-! Trees that differ in the order of children.

Declaring the same things in another order gives the items other ids and lists the
children of each differently. All else is the same: there is a renumbering of ids that
takes every item of the one tree to its counterpart in the other. When a pass adds items
to both trees, the renumbering is extended to these (`exists_extension`). -/
namespace Schemata

open Search

/-! ### Items with other ids -/

/-- What a target is called in a tree with other ids. -/
def Target.rename (σ : ItemId → ItemId) : Target → Target
  | item x => item (σ x)
  | builtin type => builtin type

/-- Without ids. -/
def Item.unlinked (i : Item) : Item :=
  { i with
    id := ⟨0⟩, parent := none, references := [], alternatives := [], referencedBy := [],
    children := [] }

/-- With the id of `j` and the ids of other items that it knows. -/
def Item.linkedAs (i j : Item) : Item :=
  { i with
    id := j.id, parent := j.parent, references := j.references, alternatives := j.alternatives,
    referencedBy := j.referencedBy, children := j.children }

/-- The items are the same, but for the ids that they know others by and for the order of their
children. Their own ids and who refers to them are left out: these follow from the places of the
items (`Reordered.id_item`) and from the references. -/
structure Item.Matches (σ : ItemId → ItemId) (i j : Item) : Prop where
  unlinked : j.unlinked = i.unlinked
  parent : j.parent = i.parent.map σ
  references : j.references = i.references.map (Target.rename σ)
  alternatives : j.alternatives = i.alternatives.map σ
  children : j.children.Perm (i.children.map σ)

theorem Target.rename_injective {σ : ItemId → ItemId} (hσ : Function.Injective σ) :
    Function.Injective (Target.rename σ) := by
  intro a b h
  cases a <;> cases b
  · exact congrArg item (hσ (item.inj h))
  · cases h
  · cases h
  · exact congrArg builtin (builtin.inj h)

namespace Item.Matches

variable {σ : Equiv.Perm ItemId} {i j : Item}

theorem field {σ : ItemId → ItemId} {α : Type} (h : i.Matches σ j) (g : Item → α)
    (hg : ∀ i : Item, g i.unlinked = g i) : g j = g i := by
  rw [← hg j, h.unlinked, hg i]

theorem symm (h : i.Matches σ j) : j.Matches σ.symm i where
  unlinked := h.unlinked.symm
  parent := by
    rw [h.parent, Option.map_map]
    simp
  references := by
    rw [h.references, List.map_map]
    refine (List.map_id'' (fun target => ?_) _).symm
    cases target <;> simp [Target.rename]
  alternatives := by
    rw [h.alternatives, List.map_map]
    simp
  children := by
    have hback := (h.children.map σ.symm).symm
    rw [List.map_map] at hback
    simpa using hback

/-- Only the ids that the item knows others by matter. -/
theorem congr {σ τ : ItemId → ItemId} (h : i.Matches σ j)
    (hparent : ∀ y, i.parent = some y → τ y = σ y)
    (hreferences : ∀ y, Target.item y ∈ i.references → τ y = σ y)
    (halternatives : ∀ y ∈ i.alternatives, τ y = σ y)
    (hchildren : ∀ y ∈ i.children, τ y = σ y) : i.Matches τ j where
  unlinked := h.unlinked
  parent := by
    rw [h.parent]
    exact Option.map_congr fun y hy => (hparent y hy).symm
  references := by
    rw [h.references]
    refine List.map_congr_left fun target htarget => ?_
    cases target with
    | item y => exact congrArg Target.item (hreferences y htarget).symm
    | builtin type => rfl
  alternatives := by
    rw [h.alternatives]
    exact List.map_congr_left fun y hy => (halternatives y hy).symm
  children := by
    rw [List.map_congr_left hchildren]
    exact h.children

/-- A change that has nothing to do with other items. -/
theorem map {σ : ItemId → ItemId} (h : i.Matches σ j) (f : Item → Item)
    (hf : ∀ i : Item, f i = (f i.unlinked).linkedAs i) :
    (f i).Matches σ (f j) := by
  rw [hf i, hf j, h.unlinked]
  exact ⟨rfl, h.parent, h.references, h.alternatives, h.children⟩

theorem target? (h : i.Matches σ j) : j.target? = i.target?.map (Target.rename σ) := by
  unfold Item.target?
  rw [h.references]
  cases i.references with
  | nil => rfl
  | cons target rest => cases rest <;> rfl

theorem itemReferences (h : i.Matches σ j) : j.itemReferences = i.itemReferences.map σ := by
  unfold Item.itemReferences
  rw [h.references, List.filterMap_map, List.map_filterMap]
  refine List.filterMap_congr fun target _ => ?_
  cases target <;> rfl

end Item.Matches

namespace ItemTree

variable {t u : ItemTree} {σ : Equiv.Perm ItemId} {x y p c : ItemId}

/-! ### Trees -/

/-- The trees are the same, but for the numbering of items and the order of children. -/
structure Reordered (t : ItemTree) (σ : Equiv.Perm ItemId) (u : ItemTree) : Prop where
  size : u.size = t.size
  lt_iff : ∀ x, (σ x).index < t.size ↔ x.index < t.size
  item : ∀ x, (t.item x).Matches σ (u.item (σ x))

theorem Reordered.refl (t : ItemTree) : t.Reordered (Equiv.refl ItemId) t where
  size := rfl
  lt_iff _ := .rfl
  item x := by
    refine ⟨rfl, Option.map_id'.symm, ?_, (List.map_id _).symm, .of_eq (List.map_id _).symm⟩
    refine (List.map_id'' (fun target => ?_) _).symm
    cases target <;> rfl

namespace Reordered

variable (h : t.Reordered σ u)
include h

theorem symm : u.Reordered σ.symm t where
  size := h.size.symm
  lt_iff y := by
    rw [h.size, ← h.lt_iff (σ.symm y), σ.apply_symm_apply]
  item y := by
    have hy := (h.item (σ.symm y)).symm
    rwa [σ.apply_symm_apply] at hy

theorem lt (hx : x.index < t.size) : (σ x).index < u.size := h.size ▸ (h.lt_iff x).2 hx

theorem id_item (ht : t.Rooted) (hu : u.Rooted) (hx : x.index < t.size) :
    (u.item (σ x)).id = σ (t.item x).id := by
  rw [hu.own _ (h.lt hx), ht.own x hx]

/-- Every item has a counterpart. -/
theorem surjective (hy : y.index < u.size) : ∃ x, x.index < t.size ∧ σ x = y :=
  ⟨σ.symm y, h.symm.lt hy, σ.apply_symm_apply y⟩

theorem field {α : Type} (g : Item → α) (hg : ∀ i : Item, g i.unlinked = g i) (x : ItemId) :
    g (u.item (σ x)) = g (t.item x) := (h.item x).field g hg

theorem mem_children : σ c ∈ (u.item (σ p)).children ↔ c ∈ (t.item p).children := by
  rw [(h.item p).children.mem_iff]
  exact List.mem_map_of_injective σ.injective

end Reordered

theorem Reordered.of_lt (hsize : u.size = t.size)
    (hlt : ∀ x, (σ x).index < t.size ↔ x.index < t.size)
    (hitem : ∀ x, x.index < t.size → (t.item x).Matches σ (u.item (σ x))) : t.Reordered σ u := by
  refine ⟨hsize, hlt, fun x => ?_⟩
  by_cases hx : x.index < t.size
  · exact hitem x hx
  · rw [item_of_size_le (Nat.le_of_not_lt hx),
      item_of_size_le (hsize ▸ Nat.le_of_not_lt fun hs => hx ((hlt x).1 hs))]
    exact ⟨rfl, rfl, rfl, rfl, .rfl⟩

/-- Renumberings that agree on a tree take its items to the same ones. -/
theorem Reordered.matches_of_agree {τ : Equiv.Perm ItemId} (h : t.Reordered σ u)
    (ht : t.WellFormed) (hτ : ∀ x, x.index < t.size → τ x = σ x) (hx : x.index < t.size) :
    (t.item x).Matches τ (u.item (σ x)) := by
  have hlisted : ∀ y ∈ t.listed x, τ y = σ y := fun y hy => hτ y (ht.rooted.listed x y hy).1
  exact (h.item x).congr
    (fun y hy => hτ y (Nat.lt_trans (ht.rooted.lt_of_parent hx hy) hx))
    (fun y hy => hτ y (ht.regular.references x y hy).1)
    (fun y hy => hlisted y (List.mem_append_left _ hy))
    (fun y hy => hlisted y (List.mem_append_right _ hy))

/-! ### Declaring in another order -/

section Push

variable {i j : Item} {q : ItemId}

theorem size_push (t : ItemTree) (p : ItemId) (i : Item) : (t.push p i).size = t.size + 1 :=
  size_addUnder t p i withChild

theorem nextId_push (t : ItemTree) (p : ItemId) (i : Item) :
    (t.push p i).nextId = ⟨t.size + 1⟩ := congrArg ItemId.mk (size_push t p i)

theorem lt_push (hx : x.index ≤ t.size) : x.index < (t.push p i).size := by
  rw [size_push]
  exact Nat.lt_succ_of_le hx

/-- What an item is like once there is one more. -/
theorem item_push_of_lt (hp : p.index < t.size) (hx : x.index < t.size) :
    (t.push p i).item x = { t.item x with
      children := (t.item x).children ++ if x = p then [t.nextId] else [] } := by
  rw [item_push hp, if_neg (ne_nextId hx)]
  split
  · next he =>
    rw [he]
    rfl
  · rw [List.append_nil]

section Twice

variable (hq : q.index < t.size)
include hq

theorem item_push_push_second :
    ((t.push p i).push q j).item ⟨t.size + 1⟩ =
      { j with id := ⟨t.size + 1⟩, parent := some q } := by
  rw [← nextId_push t p i, item_push_nextId (lt_push (Nat.le_of_lt hq))]

variable (hp : p.index < t.size)
include hp

theorem item_push_push_first :
    ((t.push p i).push q j).item t.nextId = { i with id := t.nextId, parent := some p } := by
  rw [item_push_of_lt (x := t.nextId) (lt_push (Nat.le_of_lt hq)) (lt_push (Nat.le_refl t.size)),
    item_push_nextId hp, if_neg (Ne.symm (ne_nextId hq)), List.append_nil]

theorem item_push_push_of_lt (hx : x.index < t.size) :
    ((t.push p i).push q j).item x = { t.item x with
      children := (t.item x).children ++ (if x = p then [t.nextId] else []) ++
        if x = q then [⟨t.size + 1⟩] else [] } := by
  rw [item_push_of_lt (lt_push (Nat.le_of_lt hq)) (lt_push (Nat.le_of_lt hx)),
    item_push_of_lt hp hx, nextId_push]

/-- Two items declared one after the other, or the other way round. -/
theorem reordered_push_push (ht : t.WellFormed) (hi : i.Fresh) (hj : j.Fresh) :
    ((t.push p i).push q j).Reordered (Equiv.swap t.nextId ⟨t.size + 1⟩)
      ((t.push q j).push p i) := by
  have hne : t.nextId ≠ ⟨t.size + 1⟩ := fun he => by
    have hindex : t.size = t.size + 1 := congrArg ItemId.index he
    omega
  have hsize : ∀ (p q : ItemId) (i j : Item), ((t.push p i).push q j).size = t.size + 2 :=
    fun p q i j => by rw [size_push, size_push]
  have hfix : ∀ x, x.index < t.size → Equiv.swap t.nextId ⟨t.size + 1⟩ x = x := fun x hx =>
    Equiv.swap_apply_of_ne_of_ne (ne_nextId hx) fun he => by
      rw [he] at hx
      exact absurd hx (Nat.not_lt.2 (Nat.le_succ _))
  have hfresh : ∀ {k : Item} {o x y : ItemId} {σ : Equiv.Perm ItemId}, k.Fresh → σ o = o →
      Item.Matches σ { k with id := x, parent := some o } { k with id := y, parent := some o } :=
    fun hk ho => by
    refine ⟨rfl, ?_, ?_, ?_, ?_⟩
    · exact congrArg some ho.symm
    · simp [hk.references]
    · simp [hk.alternatives]
    · simp [hk.children]
  refine .of_lt (by rw [hsize, hsize]) (fun x => ?_) fun x hx => ?_
  · rw [hsize, Equiv.swap_apply_def]
    split
    · next he =>
      rw [he]
      simp [nextId]
    · split
      · next he =>
        rw [he]
        simp [nextId]
      · rfl
  · rw [hsize] at hx
    by_cases hx' : x.index < t.size
    · have hm := (Reordered.refl t).matches_of_agree ht hfix hx'
      rw [hfix x hx', item_push_push_of_lt hq hp hx', item_push_push_of_lt hp hq hx']
      refine ⟨hm.unlinked, hm.parent, hm.references, hm.alternatives, ?_⟩
      have hfirst : (if x = p then [t.nextId] else []).map (Equiv.swap t.nextId ⟨t.size + 1⟩) =
          if x = p then [⟨t.size + 1⟩] else [] := by
        split <;> simp
      have hsecond : (if x = q then [⟨t.size + 1⟩] else []).map
          (Equiv.swap t.nextId ⟨t.size + 1⟩) = if x = q then [t.nextId] else [] := by
        split <;> simp
      rw [List.map_append, List.map_append, hfirst, hsecond, List.append_assoc, List.append_assoc]
      exact hm.children.append List.perm_append_comm
    · by_cases hx'' : x = t.nextId
      · rw [hx'', Equiv.swap_apply_left, item_push_push_first hq hp, item_push_push_second hp]
        exact hfresh hi (hfix p hp)
      · obtain rfl : x = ⟨t.size + 1⟩ := by
          obtain ⟨n⟩ := x
          have hn : n ≠ t.size := fun he => hx'' (congrArg ItemId.mk he)
          simp only [ItemId.mk.injEq] at hx hx' ⊢
          omega
        rw [Equiv.swap_apply_right, item_push_push_second hq, item_push_push_first hp hq]
        exact hfresh hj (hfix q hq)

end Twice

end Push

/-! ### More items -/

/-- A correspondence between the ids up to a bound is a renumbering. -/
theorem exists_numbering {R : ItemId → ItemId → Prop} {m n : Nat}
    (hleft : ∀ a, a.index < m → ∃ b, b.index < n ∧ R a b)
    (hright : ∀ b, b.index < n → ∃ a, a.index < m ∧ R a b)
    (hunique : ∀ a b c, a.index < m → R a b → R a c → b = c)
    (hunique' : ∀ a b c, c.index < n → R a c → R b c → a = b) :
    n = m ∧ ∃ τ : Equiv.Perm ItemId,
      (∀ x, (τ x).index < m ↔ x.index < m) ∧ ∀ x, x.index < m → R x (τ x) := by
  choose f hf hR using hleft
  have hbijective : Function.Bijective
      (fun a : { x : ItemId // x.index < m } => (⟨f a a.2, hf a a.2⟩ : { x // x.index < n })) := by
    constructor
    · intro a b hab
      have he : f a a.2 = f b b.2 := congrArg Subtype.val hab
      exact Subtype.ext (hunique' a b (f b b.2) (hf b b.2) (he ▸ hR a a.2) (hR b b.2))
    · rintro ⟨b, hb⟩
      obtain ⟨a, ha, hab⟩ := hright b hb
      exact ⟨⟨a, ha⟩, Subtype.ext (hunique a _ _ ha (hR a ha) hab)⟩
  have hfin : ∀ k, Nonempty ({ x : ItemId // x.index < k } ≃ Fin k) := fun k =>
    ⟨{ toFun := fun x => ⟨x.1.index, x.2⟩, invFun := fun i => ⟨⟨i⟩, i.2⟩ }⟩
  obtain rfl : n = m := by
    obtain ⟨em⟩ := hfin m
    obtain ⟨en⟩ := hfin n
    have hcard := Fintype.card_congr ((em.symm.trans (Equiv.ofBijective _ hbijective)).trans en)
    simpa using hcard.symm
  let τ : Equiv.Perm ItemId := Equiv.Perm.subtypeCongr (Equiv.ofBijective _ hbijective)
    (Equiv.refl { x : ItemId // ¬x.index < n })
  have hτ : ∀ x (hx : x.index < n), τ x = f x hx := fun x hx =>
    Equiv.Perm.subtypeCongr.left_apply (Equiv.ofBijective _ hbijective) (Equiv.refl _) hx
  have hτ' : ∀ x, ¬x.index < n → τ x = x := fun x hx =>
    Equiv.Perm.subtypeCongr.right_apply (Equiv.ofBijective _ hbijective) (Equiv.refl _) hx
  refine ⟨rfl, τ, fun x => ?_, fun x hx => hτ x hx ▸ hR x hx⟩
  by_cases hx : x.index < n
  · simp [hτ x hx, hf x hx, hx]
  · simp [hτ' x hx]

/-- A renumbering goes on where both trees have got new items that belong together. -/
theorem exists_extension {R : ItemId → ItemId → Prop} {k m n : Nat}
    (hσ : ∀ x, (σ x).index < k ↔ x.index < k) (hm : k ≤ m) (hn : k ≤ n)
    (hleft : ∀ a, k ≤ a.index → a.index < m → ∃ b, k ≤ b.index ∧ b.index < n ∧ R a b)
    (hright : ∀ b, k ≤ b.index → b.index < n → ∃ a, k ≤ a.index ∧ a.index < m ∧ R a b)
    (hunique : ∀ a b c, k ≤ a.index → k ≤ b.index → k ≤ c.index → R a b → R a c → b = c)
    (hunique' : ∀ a b c, k ≤ a.index → k ≤ b.index → k ≤ c.index → R a c → R b c → a = b) :
    n = m ∧ ∃ τ : Equiv.Perm ItemId, (∀ x, (τ x).index < m ↔ x.index < m) ∧
      (∀ x, x.index < k → τ x = σ x) ∧
      ∀ x, k ≤ x.index → x.index < m → k ≤ (τ x).index ∧ R x (τ x) := by
  obtain ⟨he, τ, hlt, hτ⟩ := exists_numbering
    (R := fun a b => a.index < k ∧ b = σ a ∨ k ≤ a.index ∧ k ≤ b.index ∧ R a b)
    (m := m) (n := n)
    (fun a ha => by
      by_cases hk : a.index < k
      · exact ⟨σ a, Nat.lt_of_lt_of_le ((hσ a).2 hk) hn, .inl ⟨hk, rfl⟩⟩
      · obtain ⟨b, hkb, hb, hab⟩ := hleft a (Nat.le_of_not_lt hk) ha
        exact ⟨b, hb, .inr ⟨Nat.le_of_not_lt hk, hkb, hab⟩⟩)
    (fun b hb => by
      by_cases hk : b.index < k
      · have hk' : (σ.symm b).index < k := (hσ _).1 (by simpa using hk)
        exact ⟨σ.symm b, Nat.lt_of_lt_of_le hk' hm, .inl ⟨hk', by simp⟩⟩
      · obtain ⟨a, hka, ha, hab⟩ := hright b (Nat.le_of_not_lt hk) hb
        exact ⟨a, ha, .inr ⟨hka, Nat.le_of_not_lt hk, hab⟩⟩)
    (fun a b c _ hb hc => by
      rcases hb with ⟨ha, rfl⟩ | ⟨ha, hkb, hab⟩ <;> rcases hc with ⟨ha', rfl⟩ | ⟨ha', hkc, hac⟩
      · rfl
      · exact absurd ha (Nat.not_lt.2 ha')
      · exact absurd ha' (Nat.not_lt.2 ha)
      · exact hunique a b c ha hkb hkc hab hac)
    (fun a b c _ ha hb => by
      rcases ha with ⟨ha, rfl⟩ | ⟨ha, hkc, hac⟩ <;> rcases hb with ⟨hb, he⟩ | ⟨hb, hkc', hbc⟩
      · exact σ.injective he
      · exact absurd ((hσ a).2 ha) (Nat.not_lt.2 hkc')
      · exact absurd ((hσ b).2 hb) (Nat.not_lt.2 (he ▸ hkc))
      · exact hunique' a b c ha hb hkc hac hbc)
  refine ⟨he, τ, hlt, fun x hx => ?_, fun x hk hx => ?_⟩
  · rcases hτ x (Nat.lt_of_lt_of_le hx hm) with ⟨_, hxs⟩ | ⟨hk, _⟩
    · exact hxs
    · exact absurd hx (Nat.not_lt.2 hk)
  · rcases hτ x hx with ⟨hk', _⟩ | ⟨_, hkt, hR⟩
    · exact absurd hk' (Nat.not_lt.2 hk)
    · exact ⟨hkt, hR⟩

end ItemTree
end Schemata
