import Schemata.Admission
import Schemata.Proofs.Tree.Skeleton

/-! Passes over a tree.

A pass leaves a tree behind whether it succeeds or not. What every step of a pass
keeps, the pass keeps as well (`forEach_keeps`). The passes that settle arities,
work out attributes and tell references from aliases leave an alike tree, and so
does the admission; but for the first of them, arities stay as they are. -/
namespace Schemata

variable {ι : Type} {I : ItemTree → Prop} {t t' : ItemTree}

/-- The tree that a pass leaves behind. -/
def leftBy : Except Interrupted ItemTree → ItemTree
  | .ok t => t
  | .error e => e.tree

theorem leftBy_bind {x : Except Interrupted ItemTree}
    {f : ItemTree → Except Interrupted ItemTree} (hx : I (leftBy x))
    (hf : ∀ t, x = .ok t → I t → I (leftBy (f t))) : I (leftBy (x >>= f)) := by
  cases x with
  | error e => exact hx
  | ok t => exact hf t rfl hx

theorem leftBy_foldlM {f : ItemTree → ι → Except Interrupted ItemTree} {l : List ι} (h : I t)
    (hf : ∀ t, ∀ x ∈ l, I t → I (leftBy (f t x))) : I (leftBy (l.foldlM f t)) := by
  induction l generalizing t with
  | nil => exact h
  | cons x rest ih =>
    rw [List.foldlM_cons]
    exact leftBy_bind (hf t x List.mem_cons_self h) fun t' _ ht' =>
      ih ht' fun t y hy => hf t y (List.mem_cons_of_mem x hy)

namespace ItemTree

theorem forEach_keeps {step : ItemTree → ItemId → Except Interrupted ItemTree} (h : I t)
    (hstep : ∀ t', ∀ id ∈ t.walk, I t' → I (leftBy (step t' id))) :
    I (leftBy (t.forEach step)) := leftBy_foldlM h hstep

/-! ### After the classification -/

/-- What settling one item keeps, settling an item and all on the way keeps. -/
theorem settleArity_keeps (h : I t) (id : ItemId)
    (hstep : ∀ t' a x, I t' → I (t'.modify x (settledAt a))) : I (leftBy (t.settleArity id)) := by
  unfold settleArity
  split
  · next a _ => exact List.foldrRecOn _ _ h fun t' ht' x _ => hstep t' a x ht'
  · exact h

theorem alike_settleArity (t : ItemTree) (id : ItemId) : t.Alike (leftBy (t.settleArity id)) :=
  settleArity_keeps (.refl t) id fun _ _ _ h => h.trans (.of_modify (fun _ => rfl) .inl)

theorem alike_settleArities (t : ItemTree) : t.Alike (leftBy t.settleArities) :=
  forEach_keeps (.refl t) fun _ id _ h => h.trans (alike_settleArity _ id)

theorem talliesWith_describeItem (plugin : Plugin) (values : OrderedMap String Value)
    (t : ItemTree) (id : ItemId) : t.TalliesWith (leftBy (describeItem plugin values t id)) := by
  unfold describeItem
  split
  · split
    · exact .of_modify (fun _ => rfl) .inl fun _ => rfl
    · exact .refl t
  · exact .refl t

/-- The second tree differs from the first in metadata only. -/
structure DiffersInMetadata (t t' : ItemTree) : Prop where
  size : t'.size = t.size
  item : ∀ x, t'.item x = { t.item x with metadata := (t'.item x).metadata }

theorem DiffersInMetadata.refl (t : ItemTree) : t.DiffersInMetadata t := ⟨rfl, fun _ => rfl⟩

theorem DiffersInMetadata.modify (h : t.DiffersInMetadata t') (id : ItemId)
    (m : Item → Metadata) :
    t.DiffersInMetadata (t'.modify id fun i => { i with metadata := m i }) := by
  refine ⟨(size_modify t' id _).trans h.size, fun x => ?_⟩
  rw [item_modify]
  split
  · rw [h.item x]
  · exact h.item x

theorem differsInMetadata_handDown {h : Handover} (hd : t.DiffersInMetadata h.tree) (bound : Nat)
    (waiting : List ItemId) (id : ItemId) :
    t.DiffersInMetadata (handDown bound waiting h id).tree := by
  induction bound generalizing waiting id h with
  | zero => exact hd
  | succ bound ih =>
    rw [handDown]
    split
    · exact hd
    · split
      · exact hd
      · split
        · exact hd
        · exact (ih hd _ _).modify id _

theorem differsInMetadata_inheritAlong (t : ItemTree) (l : List ItemId) :
    t.DiffersInMetadata (t.inheritAlong l) := by
  unfold inheritAlong
  suffices hall : ∀ h : Handover, t.DiffersInMetadata h.tree →
      t.DiffersInMetadata (l.foldl (handDown (t.size + 1) []) h).tree from hall _ (.refl t)
  induction l with
  | nil => exact fun _ hd => hd
  | cons id rest ih => exact fun _ hd => ih _ (differsInMetadata_handDown hd _ _ _)

theorem DiffersInMetadata.talliesWith (h : t.DiffersInMetadata t') : t.TalliesWith t' := by
  refine ⟨⟨ext_item (by simp [h.size]) fun id => ?_, fun id hid => ?_⟩, fun id => ?_⟩
  · rw [item_skeleton, item_skeleton, h.item]
    rfl
  · rw [h.item] at hid
    exact .inl hid
  · rw [h.item]
    rfl

theorem talliesWith_inheritMetadata (t : ItemTree) : t.TalliesWith t.inheritMetadata :=
  (differsInMetadata_inheritAlong t t.walk).talliesWith

theorem talliesWith_describe (t : ItemTree) (plugin : Plugin) (config : Config) :
    t.TalliesWith (leftBy (t.describe plugin config)) := by
  have hitems : t.TalliesWith
      (leftBy (t.forEach (describeItem plugin (config.valuesFor plugin.name)))) :=
    forEach_keeps (.refl t) fun t' id _ h => h.trans (talliesWith_describeItem plugin _ t' id)
  unfold describe
  cases hall : t.forEach (describeItem plugin (config.valuesFor plugin.name)) with
  | error e =>
    rw [hall] at hitems
    exact hitems
  | ok t' =>
    rw [hall] at hitems
    exact hitems.trans (talliesWith_inheritMetadata t')

theorem alike_describe (t : ItemTree) (plugin : Plugin) (config : Config) :
    t.Alike (leftBy (t.describe plugin config)) := (talliesWith_describe t plugin config).toAlike

theorem talliesWith_markAlias (t : ItemTree) (id : ItemId) :
    t.TalliesWith (leftBy (t.markAlias id)) := by
  unfold markAlias
  dsimp only
  split
  · split
    · exact .of_modify (fun _ => rfl) .inl fun _ => rfl
    · exact .refl t
  · exact .refl t

theorem talliesWith_markAliases (t : ItemTree) : t.TalliesWith (leftBy t.markAliases) :=
  forEach_keeps (.refl t) fun _ id _ h => h.trans (talliesWith_markAlias _ id)

theorem alike_markAliases (t : ItemTree) : t.Alike (leftBy t.markAliases) :=
  (talliesWith_markAliases t).toAlike

/-- Every chain whose end is looked for while attributes are worked out has one. -/
theorem chainEnd_of_describe {plugin : Plugin} {config : Config}
    (h : t.describe plugin config = .ok t') : ∀ id ∈ t.walk, hasSchema (t.item id) →
      (t.item id).kind = some .reference → ∃ target, t.chainEnd id = .ok target := by
  have hall : ∀ r, t.forEach (describeItem plugin (config.valuesFor plugin.name)) = .ok r →
      ∀ id ∈ t.walk, hasSchema (t.item id) → (t.item id).kind = some .reference →
        ∃ target, t.chainEnd id = .ok target := by
    intro r hr
    refine (foldlM_ok (fun done t' => t.Alike t' ∧ ∀ id ∈ done, hasSchema (t.item id) →
      (t.item id).kind = some .reference → ∃ target, t.chainEnd id = .ok target) hr
      ⟨.refl t, by simp⟩ fun done id rest t₁ t₂ _ hinv hstep => ?_).2
    have halike := (talliesWith_describeItem plugin (config.valuesFor plugin.name) t₁ id).toAlike
    rw [hstep] at halike
    refine ⟨hinv.1.trans halike, fun j hj hs hk => ?_⟩
    rcases List.mem_append.1 hj with hj | hj
    · exact hinv.2 j hj hs hk
    · rw [List.mem_singleton.1 hj] at hs hk ⊢
      unfold describeItem at hstep
      rw [if_pos (by rw [hinv.1.field hasSchema fun _ => rfl]; exact hs)] at hstep
      split at hstep
      · next schema hschema =>
        obtain ⟨kind, hkind, _⟩ := bind_eq_ok hschema
        unfold schemaKind at hkind
        rw [if_pos ((hinv.1.field Item.kind (fun _ => rfl) id).trans hk), hinv.1.endKind] at hkind
        unfold endKind at hkind
        cases hend : t.chainEnd id with
        | error failure =>
          rw [hend] at hkind
          cases hkind
        | ok target => exact ⟨target, rfl⟩
      · cases hstep
  unfold describe at h
  cases hr : t.forEach (describeItem plugin (config.valuesFor plugin.name)) with
  | error e =>
    rw [hr] at h
    cases h
  | ok r => exact hall r hr

/-! ### Admission -/

/-- Admitting the metadata of an item changes its metadata only. -/
theorem eq_of_admitMetadata {i i' : Item} {options : Options} {name : String}
    (h : i.admitMetadata options name = .ok i') : i' = { i with metadata := i'.metadata } := by
  obtain ⟨_, _, h⟩ := bind_eq_ok h
  obtain ⟨known, hknown, h⟩ := bind_eq_ok h
  obtain ⟨typed, htyped, h⟩ := bind_eq_ok h
  obtain ⟨_, _, h⟩ := bind_eq_ok h
  cases h
  have hk : known = { i with metadata := known.metadata } := by
    unfold Item.dropUnknown at hknown
    dsimp only at hknown
    split at hknown
    · cases hknown
    · cases hknown
      rfl
  obtain ⟨metadata, _, h⟩ := bind_eq_ok htyped
  cases h
  unfold Item.fillDefaults
  rw [hk]

theorem alike_admitEntries {options : Options} {id : ItemId}
    (h : t.admitEntries options id = .ok t') : t.Alike t' := by
  unfold admitEntries at h
  dsimp only at h
  split at h
  · cases h
    exact .refl t
  · cases hm : (t.item id).admitMetadata options (t.qualifiedName id) with
    | error failure =>
      rw [hm] at h
      cases h
    | ok i =>
      rw [hm] at h
      cases h
      have hi := eq_of_admitMetadata hm
      refine ⟨ext_item (by simp) fun j => ?_, fun j hj => ?_⟩
      · rw [item_skeleton, item_skeleton, item_modify]
        split
        · next hj =>
          rw [hj.1, hi]
          rfl
        · rfl
      · rw [item_modify] at hj
        split at hj
        · next he =>
          rw [he.1]
          rw [hi] at hj
          exact .inl hj
        · exact .inl hj

theorem alike_admitExtension {plugin : Plugin} {options : Options} {id : ItemId}
    (h : t.admitExtension plugin options id = .ok t') : t.Alike t' := by
  unfold admitExtension at h
  dsimp only at h
  split at h
  · cases h
    exact .refl t
  · next hext =>
    rw [Bool.or_eq_true, not_or] at hext
    split at h
    · cases h
      exact .of_modify (fun _ => rfl) fun _ => .inr (by simpa using hext.1)
    · cases h

/-- What is known of an item that is admitted, unless it is ignored. -/
structure Admits (t : ItemTree) (id : ItemId) : Prop where
  attributes : (t.item id).kind = some .simple → ∀ c ∈ (t.item id).children,
    (t.item c).isSynthetic ∨ (t.item c).role = .scalar ∨ (t.item c).isExtension
  scalar : (t.item id).role = .scalar → t.endKind id = .ok (some .fundamental)
  references : ∀ x ∈ (t.item id).itemReferences, ∃ target, t.chainEnd x = .ok target ∧
    ∀ last, target = .item last → (t.item last).isExtension = false

theorem Alike.admits {id : ItemId} (h : t.Alike t') (ha : t.Admits id) : t'.Admits id where
  attributes hk c hc := by
    rw [h.field Item.kind fun _ => rfl] at hk
    rw [h.field Item.children fun _ => rfl] at hc
    rw [h.field Item.isSynthetic fun _ => rfl, h.field Item.role fun _ => rfl,
      h.field Item.isExtension fun _ => rfl]
    exact ha.attributes hk c hc
  scalar hr := by
    rw [h.field Item.role fun _ => rfl] at hr
    rw [h.endKind]
    exact ha.scalar hr
  references x hx := by
    rw [h.field Item.itemReferences fun _ => rfl] at hx
    rw [h.chainEnd]
    obtain ⟨target, hend, hlast⟩ := ha.references x hx
    exact ⟨target, hend,
      fun last he => (h.field Item.isExtension (fun _ => rfl) last).trans (hlast last he)⟩

theorem attributes_of_checkSimple {id : ItemId} (h : t.checkSimple id = .ok ())
    (hk : (t.item id).kind = some .simple) : ∀ c ∈ (t.item id).children,
      (t.item c).isSynthetic ∨ (t.item c).role = .scalar ∨ (t.item c).isExtension := by
  unfold checkSimple at h
  dsimp only at h
  rw [if_pos hk] at h
  intro c hc
  have hchildren : (t.item id).children.forM t.checkSimpleChild = .ok () := by
    split at h
    · cases h
    · obtain ⟨_, _, h⟩ := bind_eq_ok h
      exact h
  have hchild := forM_eq_ok hchildren c hc
  unfold checkSimpleChild at hchild
  dsimp only at hchild
  split at hchild
  · next hany =>
    rw [Bool.or_eq_true, Bool.or_eq_true, decide_eq_true_eq, or_assoc] at hany
    exact hany
  · cases hchild

theorem endKind_of_checkScalar {id : ItemId} (h : t.checkScalar id = .ok ())
    (hrole : (t.item id).role = .scalar) : t.endKind id = .ok (some .fundamental) := by
  unfold checkScalar at h
  dsimp only at h
  rw [if_pos hrole] at h
  obtain ⟨kind, hkind, h⟩ := bind_eq_ok h
  split at h
  · cases h
  · next hk => rw [hkind, not_not.1 hk]

theorem chainEnd_of_checkReference {id x : ItemId} (h : t.checkReference id x = .ok ()) :
    ∃ target, t.chainEnd x = .ok target ∧
      ∀ last, target = .item last → (t.item last).isExtension = false := by
  obtain ⟨target, hend, h⟩ := bind_eq_ok h
  refine ⟨target, hend, fun last hl => ?_⟩
  subst hl
  dsimp only at h
  split at h
  · cases h
  · next hext => exact Bool.eq_false_iff.2 hext

/-- An item that is not ignored has passed its checks. -/
theorem admitItem_ok {plugin : Plugin} {options : Options} {id : ItemId}
    (h : admitItem plugin options t id = .ok t') :
    t.Alike t' ∧ ((t.item id).isIgnored = false → t'.Admits id) := by
  unfold admitItem at h
  split at h
  · next hi =>
    cases h
    exact ⟨.refl t, fun hn => absurd (hi.symm.trans hn) (by simp)⟩
  obtain ⟨_, _, h⟩ := bind_eq_ok h
  obtain ⟨_, _, h⟩ := bind_eq_ok h
  obtain ⟨_, _, h⟩ := bind_eq_ok h
  obtain ⟨t₁, hentries, h⟩ := bind_eq_ok h
  obtain ⟨_, hsimple, h⟩ := bind_eq_ok h
  obtain ⟨_, hscalar, h⟩ := bind_eq_ok h
  obtain ⟨t₂, hextension, h⟩ := bind_eq_ok h
  obtain ⟨_, hreferences, h⟩ := bind_eq_ok h
  cases h
  have h₁ := alike_admitEntries hentries
  have h₂ := alike_admitExtension hextension
  refine ⟨h₁.trans h₂, fun _ => ?_⟩
  have hends := h₂.chainEnd
  have hadmits : t₁.Admits id := by
    refine ⟨attributes_of_checkSimple hsimple, endKind_of_checkScalar hscalar, fun x hx => ?_⟩
    rw [← h₂.field Item.itemReferences fun _ => rfl] at hx
    obtain ⟨target, hend, hlast⟩ := chainEnd_of_checkReference (forM_eq_ok hreferences x hx)
    exact ⟨target, hends ▸ hend,
      fun last hl => (h₂.field Item.isExtension (fun _ => rfl) last) ▸ hlast last hl⟩
  exact h₂.admits hadmits

/-- The admission leaves an alike tree, all items of which but the extensions have passed. -/
theorem admitAll_ok {plugin : Plugin} {options : Options}
    (hi : ∀ id, (t.item id).isIgnored → (t.item id).isExtension)
    (h : t.admitAll plugin options = .ok t') :
    t.Alike t' ∧ ∀ id ∈ t.walk, (t.item id).isExtension = false → t'.Admits id := by
  refine foldlM_ok (fun done t' => t.Alike t' ∧
    ∀ id ∈ done, (t.item id).isExtension = false → t'.Admits id) h ⟨.refl t, by simp⟩
    fun done id rest t₁ t₂ _ hinv hstep => ?_
  obtain ⟨halike, hadmits⟩ := admitItem_ok hstep
  refine ⟨hinv.1.trans halike, fun j hj hn => ?_⟩
  rcases List.mem_append.1 hj with hj | hj
  · exact halike.admits (hinv.2 j hj hn)
  · rw [List.mem_singleton.1 hj] at hn ⊢
    refine hadmits (Bool.eq_false_iff.2 fun hignored => ?_)
    rcases hinv.1.ignored id hignored with hig | hext
    · exact absurd (hi id hig) (by simp [hn])
    · exact absurd hext (by simp [hn])

end ItemTree
end Schemata
