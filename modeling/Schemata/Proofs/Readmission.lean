import Schemata.Proofs.Tree.Naming
import Schemata.Proofs.Tree.Typing

/-! Admitting a tree once more.

What an admission has checked of an item goes on to hold while the items after it are
admitted, and every item comes out ready. So a second admission finds nothing to do, and
leaves the tree as the first one has left it. -/
namespace Schemata

/-- No attribute that the plugin brings has a default. -/
def Plugin.NoDefaults (plugin : Plugin) : Prop :=
  ∀ i, ∀ a ∈ plugin.requiredAttributes i ++ plugin.optionalAttributes i, a.defaultValue = none

/-- No attribute that the plugin brings has a check of the plugin's own. -/
def Plugin.NoHooks (plugin : Plugin) : Prop :=
  ∀ i, ∀ a ∈ plugin.requiredAttributes i ++ plugin.optionalAttributes i, a.IsHookFree

namespace ItemTree

variable {t t' t₁ r a : ItemTree} {plugin plugin' : Plugin} {options options' : Options}
  {id x : ItemId}

/-! ### Checks of alike trees -/

theorem Alike.checkKind (h : t.Alike t') (plugin : Plugin) :
    t'.checkKind plugin = t.checkKind plugin := by
  funext id
  unfold ItemTree.checkKind isAlternative
  rw [h.qualifiedName]
  simp only [h.field Item.kind fun _ => rfl, h.field Item.parent fun _ => rfl,
    h.field Item.alternatives fun _ => rfl, h.field Item.location fun _ => rfl]

theorem Alike.checkSimple (h : t.Alike t') : t'.checkSimple = t.checkSimple := by
  have hbase : t'.checkSimpleBase = t.checkSimpleBase := by
    funext id base
    unfold checkSimpleBase
    rw [h.qualifiedName, h.leadsToFundamental, h.field Item.location fun _ => rfl]
  have hchild : t'.checkSimpleChild = t.checkSimpleChild := by
    funext child
    unfold checkSimpleChild
    dsimp only
    rw [h.qualifiedName, h.field Item.isSynthetic fun _ => rfl, h.field Item.role fun _ => rfl,
      h.field Item.isExtension fun _ => rfl, h.field Item.location fun _ => rfl]
  funext id
  unfold ItemTree.checkSimple
  dsimp only
  rw [h.valueSources, h.qualifiedName, hbase, hchild, h.field Item.kind fun _ => rfl,
    h.field Item.references fun _ => rfl, h.field Item.children fun _ => rfl,
    h.field Item.location fun _ => rfl]

theorem Alike.checkReferences (h : t.Alike t') : t'.checkReferences = t.checkReferences := by
  have hone : t'.checkReference = t.checkReference := by
    funext id target
    unfold checkReference
    rw [h.chainEnd, h.qualifiedName]
    simp only [h.field Item.isExtension fun _ => rfl, h.field Item.name fun _ => rfl,
      h.field Item.location fun _ => rfl]
  funext id
  unfold ItemTree.checkReferences
  rw [hone, h.field Item.itemReferences fun _ => rfl]

theorem TalliesWith.checkScalar (h : t.TalliesWith t') : t'.checkScalar = t.checkScalar := by
  funext id
  unfold ItemTree.checkScalar
  dsimp only
  rw [h.endKind, h.qualifiedName, h.arity, h.field Item.role fun _ => rfl,
    h.field Item.location fun _ => rfl]

theorem TalliesWith.checkAlternatives (h : t.TalliesWith t') :
    t'.checkAlternatives = t.checkAlternatives := by
  have hnested : t'.nestedVariant = t.nestedVariant := by
    funext id
    unfold nestedVariant
    rw [h.chainEnd]
    simp only [h.field Item.kind fun _ => rfl]
  have hexpansion : t'.expansion = t.expansion := by
    funext id
    unfold expansion
    rw [hnested, h.arity]
    simp only [h.field Item.alternatives fun _ => rfl]
  have hflat : t'.flatAlternatives = t.flatAlternatives := by
    funext id
    unfold flatAlternatives
    rw [hexpansion, h.size, h.field Item.alternatives fun _ => rfl]
  have hone : t'.checkAlternative = t.checkAlternative := by
    funext id
    unfold checkAlternative alternativeName
    rw [h.arity, h.qualifiedName, h.field Item.target? fun _ => rfl,
      h.field Item.location fun _ => rfl]
  funext id
  unfold ItemTree.checkAlternatives
  rw [hflat, hone, h.field Item.kind fun _ => rfl]

/-! ### Scopes with fewer items -/

/-- What is taken in one scope is taken in another one. -/
structure Taken.Within (taken taken' : Taken) : Prop where
  names : taken.names ⊆ taken'.names
  extensions : taken.extensions ⊆ taken'.extensions

theorem Taken.Within.refl (taken : Taken) : taken.Within taken := ⟨fun _ h => h, fun _ h => h⟩

section Taking

variable {taken taken' taken₁ : Taken} {i i' : Item} (hw : taken'.Within taken)
include hw

theorem takeName_within (hname : i'.effectiveName = i.effectiveName)
    (h : takeName taken i = .ok taken₁) : taken'.Within taken₁ ∧
      ∃ taken₁', takeName taken' i' = .ok taken₁' ∧ taken₁'.Within taken₁ := by
  unfold takeName at h ⊢
  rw [hname]
  split at h
  · cases h
    exact ⟨hw, taken', rfl, hw⟩
  · next name _ =>
    split at h
    · cases h
    · next hnew =>
      cases h
      rw [if_neg fun hmem => hnew (hw.names hmem)]
      exact ⟨⟨fun n hn => List.mem_cons_of_mem name (hw.names hn), hw.extensions⟩, _, rfl,
        ⟨List.cons_subset_cons name hw.names, hw.extensions⟩⟩

theorem takeExtension_within (hname : i'.name = i.name)
    (h : takeExtension plugin taken i = .ok taken₁) : taken'.Within taken₁ ∧
      ∃ taken₁', takeExtension plugin taken' i' = .ok taken₁' ∧ taken₁'.Within taken₁ := by
  unfold takeExtension at h ⊢
  rw [hname]
  split at h
  · cases h
    exact ⟨hw, taken', rfl, hw⟩
  next name _ =>
  split at h
  · cases h
    exact ⟨hw, taken', rfl, hw⟩
  next rule _ =>
  have hadded : taken'.extensions ⊆ name :: taken.extensions := fun n hn =>
    List.mem_cons_of_mem name (hw.extensions hn)
  split at h
  · next hmem =>
    split at h
    · cases h
      refine ⟨hw, ?_⟩
      split
      · exact ⟨taken', rfl, hw⟩
      · exact ⟨_, rfl, hw.names, List.cons_subset.2 ⟨hmem, hw.extensions⟩⟩
    · cases h
  · next hnew =>
    cases h
    rw [if_neg fun hmem => hnew (hw.extensions hmem)]
    exact ⟨⟨hw.names, hadded⟩, _, rfl, hw.names, List.cons_subset_cons name hw.extensions⟩

/-- Taking an item, or leaving it out, in a scope where less is taken. -/
theorem take_within (hname : i'.effectiveName = i.effectiveName)
    (hi : i' = { i with metadata := i'.metadata, isIgnored := i'.isIgnored })
    (hignored : i.isIgnored → i'.isIgnored) (h : take plugin taken i = .ok taken₁) :
    ∃ taken₁', take plugin taken' i' = .ok taken₁' ∧ taken₁'.Within taken₁ := by
  have hsynthetic : i'.isSynthetic = i.isSynthetic := by rw [hi]
  have hext : i'.isExtension = i.isExtension := by rw [hi]; rfl
  have hdeclared : i'.name = i.name := by rw [hi]
  have hone : taken'.Within taken₁ ∧ ((i'.isIgnored || i'.isSynthetic) = false →
      ∃ taken₁', take plugin taken' i' = .ok taken₁' ∧ taken₁'.Within taken₁) := by
    unfold take at h ⊢
    rw [hsynthetic, hext]
    split at h
    · next hskip =>
      cases h
      rw [Bool.or_eq_true] at hskip
      refine ⟨hw, fun hn => ?_⟩
      rw [Bool.or_eq_false_iff] at hn
      rcases hskip with hs | hs
      · exact absurd (hignored hs) (by simp [hn.1])
      · exact absurd hs (by simp [hn.2])
    · split at h
      · next hkind =>
        obtain ⟨hin, hstep⟩ := takeExtension_within hw hdeclared h
        refine ⟨hin, fun hn => ?_⟩
        rw [if_neg (by simp [hn]), if_pos hkind]
        exact hstep
      · next hkind =>
        obtain ⟨hin, hstep⟩ := takeName_within hw hname h
        refine ⟨hin, fun hn => ?_⟩
        rw [if_neg (by simp [hn]), if_neg hkind]
        exact hstep
  cases hskip : i'.isIgnored || i'.isSynthetic with
  | false => exact hone.2 hskip
  | true =>
    refine ⟨taken', ?_, hone.1⟩
    unfold take
    rw [if_pos hskip]

end Taking

theorem Retyped.checkNames (h : t.Retyped t') (hn : t.SameNames t')
    (hok : t.checkNames plugin id = .ok ()) : t'.checkNames plugin id = .ok () := by
  have hfold : ∀ (l : List ItemId) (taken taken' taken₁ : Taken), taken'.Within taken →
      (l.map t.item).foldlM (take plugin) taken = .ok taken₁ →
      ∃ taken₁', (l.map t'.item).foldlM (take plugin) taken' = .ok taken₁' := by
    intro l
    induction l with
    | nil => exact fun _ taken' _ _ _ => ⟨taken', rfl⟩
    | cons c rest ih =>
      intro taken taken' taken₁ hw hrun
      rw [List.map_cons, List.foldlM_cons] at hrun ⊢
      obtain ⟨taken₂, hstep, hrest⟩ := bind_eq_ok hrun
      obtain ⟨taken₂', hstep', hw₂⟩ := take_within hw (hn c) (h.item c) (h.kept c) hstep
      rw [hstep']
      exact ih taken₂ taken₂' taken₁ hw₂ hrest
  obtain ⟨taken₁, hrun, _⟩ := bind_eq_ok hok
  obtain ⟨taken₁', hrun'⟩ := hfold _ _ _ _ (.refl _) hrun
  unfold ItemTree.checkNames
  rw [h.alike.field Item.children fun _ => rfl, hn.inheritedNames h.alike, hrun']
  rfl

/-! ### One item -/

/-- Every check of an item passes, now and whatever is admitted later on. -/
structure Steady (plugin : Plugin) (t : ItemTree) (id : ItemId) : Prop where
  kind : t.checkKind plugin id = .ok ()
  names : t.checkNames plugin id = .ok ()
  alternatives : t.checkAlternatives id = .ok ()
  simple : t.checkSimple id = .ok ()
  scalar : t.checkScalar id = .ok ()
  known : (t.item id).isExtension → (plugin.extension? ((t.item id).name.getD "")).isSome
  references : t.checkReferences id = .ok ()

theorem Steady.keep (hs : Steady plugin t id) (h : t.Retyped t') (hn : t.SameNames t') :
    Steady plugin t' id where
  kind := by
    rw [h.alike.checkKind]
    exact hs.kind
  names := h.checkNames hn hs.names
  alternatives := by
    rw [h.talliesWith.checkAlternatives]
    exact hs.alternatives
  simple := by
    rw [h.alike.checkSimple]
    exact hs.simple
  scalar := by
    rw [h.talliesWith.checkScalar]
    exact hs.scalar
  known := by
    rw [h.field Item.isExtension fun _ _ _ => rfl, h.field Item.name fun _ _ _ => rfl]
    exact hs.known
  references := by
    rw [h.alike.checkReferences]
    exact hs.references

/-- An extension that is not ignored when it has been admitted is known. -/
theorem known_of_admitExtension (h : t.admitExtension plugin options id = .ok t')
    (hid : id.index < t.size) (hn : (t'.item id).isIgnored = false)
    (hext : (t.item id).isExtension) :
    (plugin.extension? ((t.item id).name.getD "")).isSome := by
  unfold admitExtension at h
  dsimp only at h
  split at h
  · next hknown =>
    rw [hext] at hknown
    exact hknown
  · split at h
    · cases h
      rw [item_modify_self t hid] at hn
      cases hn
    · cases h

theorem Checked.steady (hc : Checked plugin options t id t₁ t') (hid : id.index < t.size)
    (hsame : t.SameNames t') (hn : (t'.item id).isIgnored = false) : Steady plugin t' id := by
  have h₁ := retyped_admitEntries hc.entries
  have h₂ := retyped_admitExtension hc.extension
  have h := h₁.trans h₂
  refine ⟨?_, h.checkNames hsame hc.names, ?_, ?_, ?_, fun hext => ?_, hc.references⟩
  · rw [h.alike.checkKind]
    exact hc.kind
  · rw [h.talliesWith.checkAlternatives]
    exact hc.alternatives
  · rw [h₂.alike.checkSimple]
    exact hc.simple
  · rw [h₂.talliesWith.checkScalar]
    exact hc.scalar
  · rw [h₂.field Item.isExtension fun _ _ _ => rfl] at hext
    rw [h₂.field Item.name fun _ _ _ => rfl]
    exact known_of_admitExtension hc.extension (h₁.size.symm ▸ hid) hn hext

/-- An item that is steady and ready passes an admission and stays as it is. -/
theorem Steady.admitItem (hs : Steady plugin t id)
    (hready : (t.item id).parent.isSome → (t.item id).isExtension = false → (t.item id).Ready) :
    admitItem plugin options t id = .ok t := by
  cases hn : (t.item id).isIgnored with
  | true =>
    unfold ItemTree.admitItem
    rw [if_pos hn]
    rfl
  | false =>
    have hentries : t.admitEntries options id = .ok t := by
      unfold admitEntries
      dsimp only
      split
      · rfl
      · next hskip =>
        rw [Bool.or_eq_true, not_or] at hskip
        rw [(hready (by simpa [Option.isSome_iff_ne_none] using hskip.1)
          (by simpa using hskip.2)).admitMetadata]
        exact congrArg Except.ok (modify_same rfl)
    have hextension : t.admitExtension plugin options id = .ok t := by
      unfold admitExtension
      dsimp only
      rw [if_pos]
      cases hext : (t.item id).isExtension with
      | false => rfl
      | true => exact hs.known hext
    exact admitItem_of_checked ⟨hs.kind, hs.names, hs.alternatives, hentries, hs.simple, hs.scalar,
      hextension, hs.references⟩ hn

/-! ### All items -/

/-- What is not ignored has passed all of its checks when the tree is admitted. -/
theorem steady_of_admitAll (ht : r.Resolved) (hn : r.NamesByText)
    (h : r.admitAll plugin options = .ok a) :
    ∀ x ∈ r.walk, (a.item x).isIgnored = false → Steady plugin a x := by
  refine (admitAll_passes (J := fun _ => True) (Q := Steady plugin) trivial
    (fun t₁ t₂ id hr _ hstep => ⟨trivial, fun x hs => ?_⟩)
    (fun t₁ t₂ t₃ id hid hr _ hc hi => ?_) h).2.2
  · exact hs.keep (retyped_admitItem hstep)
      (sameNames_admitItem (ht.alike hr.alike) (hr.namesByText hn) hstep)
  · refine hc.steady ?_ (fun x => ?_) hi
    · rw [hr.size]
      exact ht.wellFormed.rooted.mem_walk_iff.1 hid
    · exact (sameNames_admitExtension hc.extension x).trans
        (sameNames_admitEntries (ht.alike hr.alike) (hr.namesByText hn) hc.entries x)

/-- The schemas of a resolved tree list attributes under their names, their defaults fit, and their
checks come with the language. -/
theorem fits_schema (h : t.WellFormed) (hdefaults : plugin.NoDefaults) (hhooks : plugin.NoHooks)
    (hr : t.resolve plugin options = .ok r) (hx : hasSchema (r.item x)) :
    (r.item x).schema.Fits := by
  obtain ⟨kind, i, _, hschema⟩ := schema_of_resolve h hr hx
  rw [hschema]
  refine Schema.fits_ofAttributes fun b hb => ?_
  simp only [List.mem_append] at hb
  rcases hb with ((hb | hb) | hb) | hb
  · refine ⟨?_, isHookFree_universalAttributes b hb⟩
    simp only [universalAttributes, List.mem_cons, List.not_mem_nil, or_false] at hb
    rcases hb with rfl | rfl <;> exact Attribute.defaultFits_of_none rfl
  · unfold kindAttributes at hb
    split at hb
    · exact ⟨defaultFits_kindAttributes _ _ b hb, isHookFree_kindAttributes _ _ b hb⟩
    · cases hb
  · rcases List.mem_append.1 hb with hb | hb
    · obtain ⟨c, hc, rfl⟩ := List.mem_map.1 hb
      have hc := List.mem_append_left (plugin.optionalAttributes i) hc
      exact ⟨Attribute.defaultFits_of_none (hdefaults i c hc), hhooks i c hc⟩
    · obtain ⟨c, hc, rfl⟩ := List.mem_map.1 hb
      have hc := List.mem_append_right (plugin.requiredAttributes i) hc
      exact ⟨Attribute.defaultFits_of_none (hdefaults i c hc), hhooks i c hc⟩
  · exact ⟨defaultFits_arityAttributes _ b hb, isHookFree_arityAttributes _ b hb⟩

/-- **Admitting once more changes nothing.** If the attributes that a plugin brings have no defaults
and no checks of the plugin's own, and none of them is for the name, then a tree that is resolved
for it and admitted, for whichever plugin and options, is admitted again for the same ones, and
comes out with every item as it is. -/
theorem admitAll_again (h : t.Reachable) (hname : plugin.LeavesName)
    (hdefaults : plugin.NoDefaults) (hhooks : plugin.NoHooks)
    (hr : t.resolve plugin options = .ok r) (ha : r.admitAll plugin' options' = .ok a) :
    a.admitAll plugin' options' = .ok a := by
  have hresolved := (resolve_ok h.wellFormed hr).2
  have hw := hresolved.wellFormed
  have hretyped := retyped_admitAll ha
  have hsteady := steady_of_admitAll hresolved (namesByText_resolve h.wellFormed hname hr) ha
  refine foldlM_same fun x hx => ?_
  rw [hretyped.alike.walk] at hx
  cases hi : (a.item x).isIgnored with
  | true =>
    unfold admitItem
    rw [if_pos hi]
    rfl
  | false =>
    refine (hsteady x hx hi).admitItem fun hparent hext => ?_
    rw [hretyped.field Item.parent fun _ _ _ => rfl] at hparent
    rw [hretyped.field Item.isExtension fun _ _ _ => rfl] at hext
    obtain ⟨known, typed, hadmission⟩ :=
      item_admitAll hw ha (hw.rooted.mem_walk_iff.1 hx) hparent hext
    exact hadmission.ready
      (fits_schema h.wellFormed hdefaults hhooks hr (hasSchema_of_parent hw hparent hext))

/-- An extension that no plugin knows, and a text with a written greatest length and a colour. -/
def unsupported : ItemTree :=
  ((ofSource "").push root (Item.extension "note" [])).push root
    (((Item.declaration (some "label") "string").withMetadata "max_length" (.text "5")).withMetadata
      "colour" (.text "red"))

/-- Admitted leniently, the extension is ignored, the colour dropped, the length a number and the
least length filled in. All of that is left alone from then on. -/
theorem unsupported_settled :
    unsupported.Reachable ∧
    ({ name := "any", capabilities := .allElements } : Plugin).LeavesName ∧
    ({ name := "any", capabilities := .allElements } : Plugin).NoDefaults ∧
    ({ name := "any", capabilities := .allElements } : Plugin).NoHooks ∧ ∃ r a,
      unsupported.resolve { name := "any", capabilities := .allElements } {} = .ok r ∧
      r.admitAll { name := "any", capabilities := .allElements }
        { filterExtensions := true, filterAttributes := true } = .ok a ∧
      (r.item ⟨2⟩).metadata.keys = ["max_length", "colour"] ∧
      (a.item ⟨2⟩).metadata.keys = ["max_length", "min_length"] ∧
      ((a.item ⟨2⟩).metadata.value? "max_length").bind Value.asInt? = some 5 ∧
      (a.item ⟨1⟩).isIgnored ∧
      a.admitAll { name := "any", capabilities := .allElements }
        { filterExtensions := true, filterAttributes := true } = .ok a := by
  have hreachable : unsupported.Reachable :=
    ((Reachable.source "").push (p := root) (by decide) (.extension "note" [])).push (p := root)
      (by decide) (((Item.Declared.declaration (some "label") "string").withMetadata "max_length"
        (.text "5")).withMetadata "colour" (.text "red"))
  have hname : ({ name := "any", capabilities := .allElements } : Plugin).LeavesName :=
    fun _ _ ha => absurd ha List.not_mem_nil
  have hdefaults : ({ name := "any", capabilities := .allElements } : Plugin).NoDefaults :=
    fun _ _ ha => absurd ha List.not_mem_nil
  have hhooks : ({ name := "any", capabilities := .allElements } : Plugin).NoHooks :=
    fun _ _ ha => absurd ha List.not_mem_nil
  have hadmitted :
      ((unsupported.resolve { name := "any", capabilities := .allElements } {}).toOption.bind
        fun r => (r.admitAll { name := "any", capabilities := .allElements }
          { filterExtensions := true, filterAttributes := true }).toOption.map fun a =>
            ((r.item ⟨2⟩).metadata.keys, (a.item ⟨2⟩).metadata.keys,
              ((a.item ⟨2⟩).metadata.value? "max_length").bind Value.asInt?,
              (a.item ⟨1⟩).isIgnored)) =
        some (["max_length", "colour"], ["max_length", "min_length"], some 5, true) := by
    decide +kernel
  obtain ⟨r, hr, hrest⟩ := Option.bind_eq_some_iff.1 hadmitted
  obtain ⟨a, ha, hfacts⟩ := Option.map_eq_some_iff.1 hrest
  rw [toOption_eq_some_iff] at hr ha
  simp only [Prod.mk.injEq] at hfacts
  obtain ⟨hbefore, hafter, hlength, hignored⟩ := hfacts
  exact ⟨hreachable, hname, hdefaults, hhooks, r, a, hr, ha, hbefore, hafter, hlength, hignored,
    admitAll_again hreachable hname hdefaults hhooks hr ha⟩

end ItemTree
end Schemata
