import Schemata.Proofs.Tree.Passes

/-! What an admission leaves, and what it has checked.

An admission writes metadata and ignores extensions, and nothing else. Every item
that it does not skip has passed each check, in the tree as it was then. -/
namespace Schemata.ItemTree

variable {t t' t₁ : ItemTree} {plugin : Plugin} {options : Options} {id x : ItemId}

/-! ### What is left -/

/-- The same items but for their metadata, where extensions may have become ignored. -/
structure Retyped (t t' : ItemTree) : Prop where
  size : t'.size = t.size
  item : ∀ id, t'.item id = { t.item id with
    metadata := (t'.item id).metadata, isIgnored := (t'.item id).isIgnored }
  ignored : ∀ id, (t'.item id).isIgnored → (t.item id).isIgnored ∨ (t.item id).isExtension
  kept : ∀ id, (t.item id).isIgnored → (t'.item id).isIgnored

namespace Retyped

theorem refl (t : ItemTree) : t.Retyped t := ⟨rfl, fun _ => rfl, fun _ => .inl, fun _ hi => hi⟩

/-- Whatever can be told without metadata stays the same. -/
theorem field {α : Type} (h : t.Retyped t') (f : Item → α)
    (hf : ∀ i m b, f { i with metadata := m, isIgnored := b } = f i) (id : ItemId) :
    f (t'.item id) = f (t.item id) := by
  rw [h.item, hf]

theorem trans {t'' : ItemTree} (h : t.Retyped t') (h' : t'.Retyped t'') : t.Retyped t'' where
  size := h'.size.trans h.size
  item id := by
    rw [h'.item]
    dsimp only
    rw [h.item id]
  ignored id hi := by
    rcases h'.ignored id hi with hi | he
    · exact h.ignored id hi
    · exact .inr (h.field Item.isExtension (fun _ _ _ => rfl) id ▸ he)
  kept id hi := h'.kept id (h.kept id hi)

theorem alike (h : t.Retyped t') : t.Alike t' where
  skeleton := ext_item (by simp [h.size]) fun id => by
    rw [item_skeleton, item_skeleton]
    exact h.field Item.skeleton (fun _ _ _ => rfl) id
  ignored := h.ignored

theorem talliesWith (h : t.Retyped t') : t.TalliesWith t' :=
  ⟨h.alike, fun id => h.field Item.tally (fun _ _ _ => rfl) id⟩

theorem of_modify {f : Item → Item} (hf : f (t.item id) = { t.item id with
      metadata := (f (t.item id)).metadata, isIgnored := (f (t.item id)).isIgnored })
    (hi : (f (t.item id)).isIgnored → (t.item id).isIgnored ∨ (t.item id).isExtension)
    (hkept : (t.item id).isIgnored → (f (t.item id)).isIgnored) : t.Retyped (t.modify id f) := by
  refine ⟨size_modify t id f, fun j => ?_, fun j hj => ?_, fun j hj => ?_⟩
  · rw [item_modify]
    split
    · next hj =>
      rw [hj.1]
      exact hf
    · rfl
  · rw [item_modify] at hj
    split at hj
    · next he =>
      rw [he.1] at hj ⊢
      exact hi hj
    · exact .inl hj
  · rw [item_modify]
    split
    · next he =>
      rw [he.1] at hj ⊢
      exact hkept hj
    · exact hj

end Retyped

theorem retyped_admitEntries (h : t.admitEntries options id = .ok t') : t.Retyped t' := by
  unfold admitEntries at h
  dsimp only at h
  split at h
  · cases h
    exact .refl t
  · cases hm : (t.item id).admitMetadata options (t.qualifiedName id) with
    | error failure =>
      rw [hm] at h
      cases h
    | ok i =>
      rw [hm] at h
      cases h
      have hi := eq_of_admitMetadata hm
      have hignored : i.isIgnored = (t.item id).isIgnored := by rw [hi]
      refine .of_modify ?_ (fun hn => .inl (hignored ▸ hn)) fun hn => hignored ▸ hn
      dsimp only
      rw [hignored]
      exact hi

theorem retyped_admitExtension (h : t.admitExtension plugin options id = .ok t') :
    t.Retyped t' := by
  unfold admitExtension at h
  dsimp only at h
  split at h
  · cases h
    exact .refl t
  · next hext =>
    rw [Bool.or_eq_true, not_or] at hext
    split at h
    · cases h
      exact .of_modify rfl (fun _ => .inr (by simpa using hext.1)) fun _ => rfl
    · cases h

/-! ### What has been checked -/

/-- The checks of one item that is not ignored, in order. -/
structure Checked (plugin : Plugin) (options : Options) (t : ItemTree) (id : ItemId)
    (t₁ t' : ItemTree) : Prop where
  kind : t.checkKind plugin id = .ok ()
  names : t.checkNames plugin id = .ok ()
  alternatives : t.checkAlternatives id = .ok ()
  entries : t.admitEntries options id = .ok t₁
  simple : t₁.checkSimple id = .ok ()
  scalar : t₁.checkScalar id = .ok ()
  extension : t₁.admitExtension plugin options id = .ok t'
  references : t'.checkReferences id = .ok ()

theorem checked_of_admitItem (h : admitItem plugin options t id = .ok t')
    (hn : (t.item id).isIgnored = false) : ∃ t₁, Checked plugin options t id t₁ t' := by
  unfold admitItem at h
  split at h
  · next hi => exact absurd (hi.symm.trans hn) (by simp)
  obtain ⟨_, hkind, h⟩ := bind_eq_ok h
  obtain ⟨_, hnames, h⟩ := bind_eq_ok h
  obtain ⟨_, halternatives, h⟩ := bind_eq_ok h
  obtain ⟨t₁, hentries, h⟩ := bind_eq_ok h
  obtain ⟨_, hsimple, h⟩ := bind_eq_ok h
  obtain ⟨_, hscalar, h⟩ := bind_eq_ok h
  obtain ⟨t₂, hextension, h⟩ := bind_eq_ok h
  obtain ⟨_, hreferences, h⟩ := bind_eq_ok h
  cases h
  exact ⟨t₁, hkind, hnames, halternatives, hentries, hsimple, hscalar, hextension, hreferences⟩

theorem admitItem_of_checked (hc : Checked plugin options t id t₁ t')
    (hn : (t.item id).isIgnored = false) : admitItem plugin options t id = .ok t' := by
  unfold admitItem
  rw [hn, hc.kind, hc.names, hc.alternatives, hc.entries]
  show (t₁.checkSimple id >>= _) = _
  rw [hc.simple, hc.scalar]
  show (t₁.admitExtension plugin options id >>= _) = _
  rw [hc.extension]
  show (t'.checkReferences id >>= fun _ => _) = _
  rw [hc.references]
  rfl

theorem retyped_admitItem (h : admitItem plugin options t id = .ok t') : t.Retyped t' := by
  cases hn : (t.item id).isIgnored with
  | true =>
    unfold admitItem at h
    rw [if_pos hn] at h
    cases h
    exact .refl t
  | false =>
    obtain ⟨t₁, hc⟩ := checked_of_admitItem h hn
    exact (retyped_admitEntries hc.entries).trans (retyped_admitExtension hc.extension)

theorem retyped_admitAll (h : t.admitAll plugin options = .ok t') : t.Retyped t' :=
  foldlM_ok (fun _ t' => t.Retyped t') h (.refl t) fun _ _ _ _ _ _ hr hstep =>
    hr.trans (retyped_admitItem hstep)

theorem Retyped.not_ignored (h : t.Retyped t') (hn : (t'.item id).isIgnored = false) :
    (t.item id).isIgnored = false :=
  Bool.eq_false_iff.2 fun hi => absurd (h.kept id hi) (by simp [hn])

/-- What every step of an admission keeps, and what it yields for an item that it does not skip,
holds at the end of all items that are not ignored by then. -/
theorem admitAll_passes {J : ItemTree → Prop} {Q : ItemTree → ItemId → Prop} (hstart : J t)
    (hkeep : ∀ t₁ t₂ id, t.Retyped t₁ → J t₁ → admitItem plugin options t₁ id = .ok t₂ →
      J t₂ ∧ ∀ x, Q t₁ x → Q t₂ x)
    (hpass : ∀ t₁ t₂ t₃, ∀ id ∈ t.walk, t.Retyped t₁ → J t₁ →
      Checked plugin options t₁ id t₂ t₃ → (t₃.item id).isIgnored = false → Q t₃ id)
    (h : t.admitAll plugin options = .ok t') :
    t.Retyped t' ∧ J t' ∧ ∀ id ∈ t.walk, (t'.item id).isIgnored = false → Q t' id := by
  refine foldlM_ok (fun done t' => t.Retyped t' ∧ J t' ∧
    ∀ id ∈ done, (t'.item id).isIgnored = false → Q t' id) h ⟨.refl t, hstart, by simp⟩
    fun done id rest t₁ t₂ hl ⟨hr, hJ, hQ⟩ hstep => ?_
  have hstays := retyped_admitItem hstep
  obtain ⟨hJ', hQ'⟩ := hkeep t₁ t₂ id hr hJ hstep
  refine ⟨hr.trans hstays, hJ', fun j hj hn => ?_⟩
  have hn₁ := hstays.not_ignored hn
  rcases List.mem_append.1 hj with hj | hj
  · exact hQ' j (hQ j hj hn₁)
  · obtain rfl := List.mem_singleton.1 hj
    obtain ⟨t₃, hc⟩ := checked_of_admitItem hstep hn₁
    exact hpass t₁ t₃ t₂ j (hl ▸ by simp) hr hJ hc hn

/-- As only extensions are ever ignored, all other items have passed. -/
theorem admitAll_each {J : ItemTree → Prop} {Q : ItemId → Prop}
    (hi : ∀ id, (t.item id).isIgnored → (t.item id).isExtension) (hstart : J t)
    (hkeep : ∀ t₁ t₂ id, t.Retyped t₁ → J t₁ → admitItem plugin options t₁ id = .ok t₂ → J t₂)
    (hpass : ∀ t₁ t₂ t₃ id, t.Retyped t₁ → J t₁ → Checked plugin options t₁ id t₂ t₃ → Q id)
    (h : t.admitAll plugin options = .ok t') :
    t.Retyped t' ∧ J t' ∧ ∀ id ∈ t.walk, (t.item id).isExtension = false → Q id := by
  obtain ⟨hr, hJ, hQ⟩ := admitAll_passes (Q := fun _ id => Q id) hstart
    (fun t₁ t₂ id hr hJ hstep => ⟨hkeep t₁ t₂ id hr hJ hstep, fun _ hx => hx⟩)
    (fun t₁ t₂ t₃ id _ hr hJ hc _ => hpass t₁ t₂ t₃ id hr hJ hc) h
  refine ⟨hr, hJ, fun id hid hext => hQ id hid (Bool.eq_false_iff.2 fun hignored => ?_)⟩
  rcases hr.ignored id hignored with hig | hext'
  · exact absurd (hi id hig) (by simp [hext])
  · exact absurd hext' (by simp [hext])

/-- A simple object that has passed its check has one value source at most. -/
theorem valueSources_of_checkSimple (h : t.checkSimple id = .ok ())
    (hk : (t.item id).kind = some .simple) : t.valueSources id ≤ 1 := by
  unfold checkSimple at h
  dsimp only at h
  rw [if_pos hk] at h
  by_contra hn
  rw [if_pos (Nat.not_le.1 hn)] at h
  cases h

theorem Alike.valueSources (h : t.Alike t') : t'.valueSources = t.valueSources := by
  funext id
  unfold ItemTree.valueSources
  rw [h.simpleSources, h.syntheticChild]

/-- No simple object of an admitted tree has more than one value source. -/
theorem valueSources_admitAll (hi : ∀ id, (t.item id).isIgnored → (t.item id).isExtension)
    (h : t.admitAll plugin options = .ok t') (hid : id ∈ t.walk)
    (hn : (t.item id).isExtension = false) (hk : (t.item id).kind = some .simple) :
    t'.valueSources id ≤ 1 := by
  have hpass : ∀ t₁ t₂ t₃ x, t.Retyped t₁ → True → Checked plugin options t₁ x t₂ t₃ →
      (t.item x).kind = some .simple → t.valueSources x ≤ 1 := fun t₁ t₂ _ x hr _ hc hk => by
    have ha : t.Alike t₂ := hr.alike.trans (retyped_admitEntries hc.entries).alike
    rw [← ha.valueSources]
    exact valueSources_of_checkSimple hc.simple ((ha.field Item.kind (fun _ => rfl) x).trans hk)
  obtain ⟨hr, _, hall⟩ := admitAll_each hi trivial (fun _ _ _ _ _ _ => trivial) hpass h
  rw [hr.alike.valueSources]
  exact hall id hid hn hk

end Schemata.ItemTree
