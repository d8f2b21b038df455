import Schemata.Proofs.OrderedMap
import Schemata.Proofs.Tree.Naming
import Schemata.Proofs.Tree.Sweeps

/-! What describing makes of every item.

The schema of an item depends on its kind, its arity and what it wraps, none of which
changes while items are described, and on the item itself. So each item gets the
schema that it has in the tree that the pass starts from, and configured values for
what it leaves open there. -/
namespace Schemata.ItemTree

variable {t t' m : ItemTree} {plugin : Plugin} {values : OrderedMap String Value}
  {x : ItemId} {key : String}

/-! ### Configured values -/

/-- The entry that a configuration makes for an attribute of an item. -/
def configured (values : OrderedMap String Value) (schema : Schema) (i : Item) (key : String) :
    Option Entry :=
  if schema.contains key then (values.find? key).map fun value => ⟨value, .config, i.location⟩
  else none

/-- What an item has itself stays, and a configured value comes in where it has none. -/
theorem find?_fill (values : OrderedMap String Value) (schema : Schema) (i : Item) (key : String) :
    (fill values schema i).find? key =
      (i.metadata.find? key).or (configured values schema i key) := by
  have hall : ∀ (l : List (String × Value)) (metadata : Metadata), (l.map Prod.fst).Nodup →
      OrderedMap.find? (l.foldl (fun metadata e =>
        if schema.contains e.1 && !metadata.contains e.1 then
          metadata.insert e.1 ⟨e.2, .config, i.location⟩
        else metadata) metadata) key =
      (metadata.find? key).or (if schema.contains key then
        (l.lookup key).map fun value => ⟨value, .config, i.location⟩ else none) := by
    intro l
    induction l with
    | nil => intro metadata _; simp
    | cons e rest ih =>
      intro metadata hn
      rw [List.map_cons, List.nodup_cons] at hn
      rw [List.foldl_cons, ih _ hn.2, OrderedMap.lookup_cons]
      by_cases hk : key = e.1
      · have hnone : rest.lookup key = none :=
          (OrderedMap.lookup_eq_none_iff key rest).2 (hk ▸ hn.1)
        rw [if_pos hk, hnone, ← hk]
        unfold OrderedMap.contains
        cases hm : metadata.find? key <;> cases hs : (schema.find? key).isSome <;>
          simp [hm, OrderedMap.find?_insert_self]
      · rw [if_neg hk]
        split
        · rw [OrderedMap.find?_insert, if_neg hk]
        · rfl
  exact hall values.entries i.metadata values.nodup_keys

/-! ### One item -/

/-- An item with its schema, and with configured values for what it leaves open. -/
def described (values : OrderedMap String Value) (schema : Schema) (i : Item) : Item :=
  { i with metadata := fill values schema i, schema }

theorem TalliesWith.schemaFor (h : t.TalliesWith t') (hx : t'.item x = t.item x) :
    t'.schemaFor plugin x = t.schemaFor plugin x := by
  unfold ItemTree.schemaFor schemaKind kindAttributes
  rw [hx, h.endKind, h.fundamentalOf]

theorem describeItem_local {t₁ t₂ : ItemTree} {id : ItemId}
    (h : describeItem plugin values t₁ id = .ok t₂) (hx : x ≠ id) :
    t₂.item x = t₁.item x := by
  unfold describeItem at h
  split at h
  · split at h
    · cases h
      exact item_modify_of_ne t₁ hx _
    · cases h
  · cases h
    rfl

theorem talliesWith_of_describeItem {t₁ t₂ : ItemTree} {id : ItemId}
    (h : describeItem plugin values t₁ id = .ok t₂) : t₁.TalliesWith t₂ := by
  have hdescribed := talliesWith_describeItem plugin values t₁ id
  rwa [h] at hdescribed

/-- What describing makes of an item. -/
theorem item_describeItem {t₁ t₂ : ItemTree} (h : describeItem plugin values t₁ x = .ok t₂) :
    (hasSchema (t₁.item x) → ∃ schema, t₁.schemaFor plugin x = .ok schema ∧
      t₂.item x = described values schema (t₁.item x)) ∧
    (hasSchema (t₁.item x) = false → t₂.item x = t₁.item x) := by
  unfold describeItem at h
  split at h
  · next hs =>
    split at h
    · next schema hschema =>
      cases h
      exact ⟨fun _ => ⟨schema, hschema, item_modify_self t₁ (lt_of_hasSchema hs) _⟩,
        fun hn => absurd (hn.symm.trans hs) (by simp)⟩
    · cases h
  · next hs =>
    cases h
    exact ⟨fun hs' => absurd hs' hs, fun _ => rfl⟩

/-! ### All items -/

/-- What describing makes of all items, before entries are handed down. -/
structure DescribedFrom (plugin : Plugin) (values : OrderedMap String Value) (t m : ItemTree) :
    Prop extends t.TalliesWith m where
  item : ∀ x, hasSchema (t.item x) → ∃ schema, t.schemaFor plugin x = .ok schema ∧
    m.item x = described values schema (t.item x)
  bare : ∀ x, hasSchema (t.item x) = false → m.item x = t.item x

theorem describedFrom_of_forEach (ht : t.Rooted)
    (h : t.forEach (describeItem plugin values) = .ok m) : DescribedFrom plugin values t m := by
  obtain ⟨htallies, _, hvisits⟩ := foldlM_visits (I := t.TalliesWith)
    (fun _ _ _ hstep _ hx => describeItem_local hstep hx)
    (fun _ _ _ _ hk hstep => hk.trans (talliesWith_of_describeItem hstep)) ht.nodup_walk
    (.refl t) h
  have hvisit : ∀ x, (hasSchema (t.item x) → ∃ schema, t.schemaFor plugin x = .ok schema ∧
      m.item x = described values schema (t.item x)) ∧
      (hasSchema (t.item x) = false → m.item x = t.item x) := fun x => by
    by_cases hx : x.index < t.size
    · obtain ⟨t₁, t₂, hk, hitem, hstep, he⟩ := hvisits x (ht.mem_walk_iff.2 hx)
      have hone := item_describeItem hstep
      rw [hitem, hk.schemaFor hitem] at hone
      rw [he]
      exact hone
    · have hdefault : t.item x = default := item_of_size_le (Nat.le_of_not_lt hx)
      have hdefault' : m.item x = default :=
        item_of_size_le (htallies.size ▸ Nat.le_of_not_lt hx)
      rw [hdefault, hdefault']
      exact ⟨nofun, fun _ => rfl⟩
  exact ⟨htallies, fun x => (hvisit x).1, fun x => (hvisit x).2⟩

/-- Describing succeeds as soon as every item has a schema that may have one. -/
theorem forEach_describeItem_ok (ht : t.Rooted)
    (h : ∀ x, hasSchema (t.item x) → ∃ schema, t.schemaFor plugin x = .ok schema) :
    ∃ m, t.forEach (describeItem plugin values) = .ok m := by
  cases hd : t.forEach (describeItem plugin values) with
  | ok m => exact ⟨m, rfl⟩
  | error e =>
    obtain ⟨x, _, t₁, hk, hitem, herror⟩ := foldlM_fails (I := t.TalliesWith)
      (fun _ _ _ hstep _ hx => describeItem_local hstep hx)
      (fun _ _ _ _ hk hstep => hk.trans (talliesWith_of_describeItem hstep)) ht.nodup_walk
      (.refl t) hd
    unfold describeItem at herror
    rw [hitem, hk.schemaFor hitem] at herror
    split at herror
    · next hx =>
      obtain ⟨schema, hschema⟩ := h x hx
      rw [hschema] at herror
      cases herror
    · cases herror

namespace DescribedFrom

variable (h : DescribedFrom plugin values t m)
include h

/-- An item's own entries stay, and the configuration adds to them what its schema knows. -/
theorem find?_metadata : (m.item x).metadata.find? key =
    ((t.item x).metadata.find? key).or
      (if hasSchema (t.item x) then configured values (m.item x).schema (t.item x) key
        else none) := by
  cases hx : hasSchema (t.item x) with
  | true =>
    obtain ⟨schema, _, he⟩ := h.item x hx
    rw [he, if_pos rfl]
    exact find?_fill values schema (t.item x) key
  | false =>
    rw [h.bare x hx, if_neg (by simp), Option.or_none]

theorem find?_own {entry : Entry} (he : (t.item x).metadata.find? key = some entry) :
    (m.item x).metadata.find? key = some entry := by
  cases hx : hasSchema (t.item x) with
  | true =>
    obtain ⟨schema, _, hitem⟩ := h.item x hx
    rw [hitem]
    refine (find?_fill values schema (t.item x) key).trans ?_
    rw [he]
    rfl
  | false =>
    rw [h.bare x hx]
    exact he

end DescribedFrom

end Schemata.ItemTree
