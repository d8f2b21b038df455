import Schemata.Proofs.Tree.Sweeps

/-! What marking aliases makes of every item.

Whether a reference changes something about its target depends on what it said when it
was classified and on the end of its chain, which no mark changes. So every item gets
the mark that it gets in the tree that the pass starts from. -/
namespace Schemata.ItemTree

variable {t t' t₁ t₂ : ItemTree} {id x : ItemId} {b : Bool}

/-- Whether an item changes something about its target, once that is known. -/
def augments (t : ItemTree) (x : ItemId) : Except Failure Bool :=
  match (t.item x).kind, (t.item x).refinement with
  | some .reference, some r => t.isAugmenting x r
  | _, _ => .ok (t.item x).isAugmenting

/-- With the mark whether it changes something about its target. -/
def withMark (isAugmenting : Bool) (i : Item) : Item := { i with isAugmenting }

theorem modify_same {f : Item → Item} (h : f (t.item id) = t.item id) : t.modify id f = t := by
  refine ext_item (size_modify t id f) fun x => ?_
  rw [item_modify]
  split
  · next hx => rw [hx.1, h]
  · rfl

theorem toOption_markAlias (t : ItemTree) (id : ItemId) :
    (t.markAlias id).toOption =
      (t.augments id).toOption.map fun b => t.modify id (withMark b) := by
  have hsame : t.modify id (withMark (t.item id).isAugmenting) = t := modify_same rfl
  unfold markAlias augments
  dsimp only
  cases hk : (t.item id).kind with
  | none => exact congrArg some hsame.symm
  | some k =>
    cases hr : (t.item id).refinement with
    | none => cases k <;> exact congrArg some hsame.symm
    | some r =>
      cases k with
      | reference =>
        dsimp only
        cases t.isAugmenting id r <;> rfl
      | _ => exact congrArg some hsame.symm

theorem Alike.isAugmenting (h : t.Alike t') : t'.isAugmenting = t.isAugmenting := by
  funext x r
  unfold ItemTree.isAugmenting augmentingAttributes
  rw [h.endKind, h.fundamentalOf]

theorem Alike.augments (h : t.Alike t') (hx : t'.item x = t.item x) :
    t'.augments x = t.augments x := by
  unfold ItemTree.augments
  rw [hx, h.isAugmenting]

theorem markAlias_local (h : t₁.markAlias id = .ok t₂) (hx : x ≠ id) :
    t₂.item x = t₁.item x := by
  have hmark := toOption_markAlias t₁ id
  rw [h] at hmark
  obtain ⟨b, _, rfl⟩ := Option.map_eq_some_iff.1 hmark.symm
  exact item_modify_of_ne t₁ hx _

/-- What marking makes of all items. -/
structure MarkedFrom (t t' : ItemTree) : Prop extends t.TalliesWith t' where
  item : ∀ x, x.index < t.size → ∃ b, t.augments x = .ok b ∧ t'.item x = withMark b (t.item x)

theorem talliesWith_of_markAlias (h : t₁.markAlias id = .ok t₂) : t₁.TalliesWith t₂ := by
  have hmark := talliesWith_markAlias t₁ id
  rwa [h] at hmark

theorem markedFrom_of_markAliases (ht : t.Rooted) (h : t.markAliases = .ok t') :
    t.MarkedFrom t' := by
  obtain ⟨htallies, _, hvisits⟩ := foldlM_visits (I := t.TalliesWith)
    (fun _ _ _ hstep _ hx => markAlias_local hstep hx)
    (fun _ _ _ _ hk hstep => hk.trans (talliesWith_of_markAlias hstep)) ht.nodup_walk (.refl t) h
  refine ⟨htallies, fun x hx => ?_⟩
  obtain ⟨t₁, t₂, hk, hitem, hstep, he⟩ := hvisits x (ht.mem_walk_iff.2 hx)
  have hmark := toOption_markAlias t₁ x
  rw [hstep, hk.augments hitem] at hmark
  obtain ⟨b, hb, rfl⟩ := Option.map_eq_some_iff.1 hmark.symm
  refine ⟨b, eq_ok_of_toOption hb, ?_⟩
  rw [he, item_modify_self t₁ (hk.size.symm ▸ hx), hitem]

/-- Marking leaves alone all but the marks. -/
theorem MarkedFrom.field {α : Type} (h : t.MarkedFrom t') (g : Item → α)
    (hg : ∀ b i, g (withMark b i) = g i) (x : ItemId) : g (t'.item x) = g (t.item x) := by
  by_cases hx : x.index < t.size
  · obtain ⟨b, _, he⟩ := h.item x hx
    rw [he, hg]
  · rw [item_of_size_le (Nat.le_of_not_lt hx), item_of_size_le (h.size ▸ Nat.le_of_not_lt hx)]

/-- Marking succeeds as soon as it is known of every item whether it changes something. -/
theorem markAliases_ok_of_augments (ht : t.Rooted)
    (h : ∀ x, x.index < t.size → ∃ b, t.augments x = .ok b) : ∃ t', t.markAliases = .ok t' := by
  cases hm : t.markAliases with
  | ok t' => exact ⟨t', rfl⟩
  | error e =>
    obtain ⟨x, hx, t₁, hk, hitem, herror⟩ := foldlM_fails (I := t.TalliesWith)
      (fun _ _ _ hstep _ hx => markAlias_local hstep hx)
      (fun _ _ _ _ hk hstep => hk.trans (talliesWith_of_markAlias hstep)) ht.nodup_walk
      (.refl t) hm
    obtain ⟨b, hb⟩ := h x (ht.mem_walk_iff.1 hx)
    have hmark := toOption_markAlias t₁ x
    rw [herror, hk.augments hitem, hb] at hmark
    cases hmark

end Schemata.ItemTree
