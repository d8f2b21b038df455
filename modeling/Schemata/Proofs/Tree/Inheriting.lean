import Mathlib.Order.RelClasses
import Schemata.Proofs.Tree.Chains
import Schemata.Proofs.Tree.Founding

/-! Handing down entries.

An item gets what its source has once the source has got all of its own, so the
items are settled from the ends of the chains of sources on. As long as no chain
comes back to itself, the result does not show in which order the items were asked
to be settled: it is the one tree in which every item has its own entries and what
it inherits from the final entries of its source (`Inherited.unique`). In a resolved
tree no chain comes back to itself: references come to an end, and the values of
simple objects are founded (`Reachable.sourcesEnd`). -/
namespace Schemata.ItemTree

variable {t t' m : ItemTree} {id w x y z : ItemId} {l : List ItemId}

/-! ### Sources -/

/-- One item is the source of another. -/
def InheritsFrom (t : ItemTree) (x y : ItemId) : Prop := t.source x = some y

/-- Going from an item to its source, and on to the source of that, comes to an end. -/
def SourcesEnd (t : ItemTree) : Prop := WellFounded (Function.swap t.InheritsFrom)

/-- No item inherits from itself, however indirectly. -/
theorem SourcesEnd.acyclic (h : t.SourcesEnd) (x : ItemId) :
    ¬Relation.TransGen t.InheritsFrom x x := fun hx =>
  have hx' := Relation.transGen_swap.2 hx
  WellFounded.asymmetric (WellFounded.transGen h) x x hx' hx'

theorem Alike.source (h : t.Alike t') : t'.source = t.source := by
  funext x
  unfold ItemTree.source simpleSource
  rw [h.syntheticChild, h.simpleSources, h.field Item.kind fun _ => rfl,
    h.field Item.target? fun _ => rfl]

theorem lt_of_inheritsFrom (h : t.InheritsFrom x y) : x.index < t.size := by
  by_contra hn
  unfold InheritsFrom source at h
  rw [item_of_size_le (Nat.le_of_not_lt hn)] at h
  cases h

theorem Alike.sourcesEnd_iff (ha : t.Alike t') : t'.SourcesEnd ↔ t.SourcesEnd := by
  unfold SourcesEnd InheritsFrom
  rw [ha.source]

theorem SourcesEnd.alike (h : t.SourcesEnd) (ha : t.Alike t') : t'.SourcesEnd :=
  ha.sourcesEnd_iff.2 h

/-! ### What an item comes to have -/

/-- An item's own entries and what it inherits from its source, with the entries that `t'` has for
the source. -/
def handed (t t' : ItemTree) (x : ItemId) : Metadata :=
  match t.source x with
  | some y => inherit (t.item x) (t'.item y).metadata
  | none => (t.item x).metadata

theorem handed_of_source (h : t.source x = some y) :
    t.handed t' x = inherit (t.item x) (t'.item y).metadata := by
  unfold handed
  rw [h]

theorem handed_of_none (h : t.source x = none) : t.handed t' x = (t.item x).metadata := by
  unfold handed
  rw [h]

/-- Every item has its own entries and what it inherits from its source. -/
structure Inherited (t t' : ItemTree) : Prop extends t.DiffersInMetadata t' where
  handed : ∀ x, (t'.item x).metadata = t.handed t' x

/-! ### One item -/

/-- What is known while entries are handed down: items that are done have their final entries, and
so has the source of each; the others are as they were. -/
structure Handing (t : ItemTree) (h : Handover) : Prop extends t.DiffersInMetadata h.tree where
  untouched : ∀ x, x ∉ h.done → h.tree.item x = t.item x
  settled : ∀ x ∈ h.done, (h.tree.item x).metadata = t.handed h.tree x
  sources : ∀ x ∈ h.done, ∀ y, t.InheritsFrom x y → y ∈ h.done

/-- An item is done, and so is what it inherits from; nothing else happens. -/
structure HandsDown (t : ItemTree) (h : Handover) (id : ItemId) (h' : Handover) : Prop
    extends t.Handing h' where
  done : id ∈ h'.done
  kept : ∀ x ∈ h.done, x ∈ h'.done ∧ h'.tree.item x = h.tree.item x
  new : ∀ x ∈ h'.done, x ∈ h.done ∨ Relation.ReflTransGen t.InheritsFrom id x

theorem Handing.start (t : ItemTree) : t.Handing ⟨t, []⟩ where
  toDiffersInMetadata := .refl t
  untouched _ _ := rfl
  settled _ hx := absurd hx List.not_mem_nil
  sources _ hx := absurd hx List.not_mem_nil

theorem Handing.source_eq {h : Handover} (hh : t.Handing h) : h.tree.source = t.source :=
  hh.toDiffersInMetadata.talliesWith.source

/-- Nothing to hand down. -/
theorem Handing.sourceless {h : Handover} (hh : t.Handing h) (hid : id ∉ h.done)
    (hs : t.source id = none) : t.HandsDown h id { h with done := id :: h.done } where
  toDiffersInMetadata := hh.toDiffersInMetadata
  untouched x hx := hh.untouched x fun hmem => hx (List.mem_cons_of_mem id hmem)
  settled x hx := by
    rcases List.mem_cons.1 hx with rfl | hx
    · rw [handed_of_none hs, hh.untouched x hid]
    · exact hh.settled x hx
  sources x hx y hxy := by
    rcases List.mem_cons.1 hx with rfl | hx
    · rw [InheritsFrom, hs] at hxy
      cases hxy
    · exact List.mem_cons_of_mem id (hh.sources x hx y hxy)
  done := List.mem_cons_self
  kept x hx := ⟨List.mem_cons_of_mem id hx, rfl⟩
  new x hx := by
    rcases List.mem_cons.1 hx with rfl | hx
    · exact .inr .refl
    · exact .inl hx

/-- An item takes over the entries of a source that is done. -/
theorem HandsDown.take {h h' : Handover} (hh : t.HandsDown h y h') (hid : id ∉ h.done)
    (hs : t.InheritsFrom id y) (hend : ¬Relation.ReflTransGen t.InheritsFrom y id) :
    t.HandsDown h id
      { tree := h'.tree.modify id fun i =>
          { i with metadata := inherit i (h'.tree.item y).metadata }
        done := id :: h'.done } := by
  have hnew : id ∉ h'.done := fun hmem => (hh.new id hmem).elim hid hend
  have hne : ∀ x ∈ h'.done, x ≠ id := fun x hx he => hnew (he ▸ hx)
  have hlt : id.index < h'.tree.size := hh.size ▸ lt_of_inheritsFrom hs
  have hother : ∀ x, x ≠ id → (h'.tree.modify id fun i =>
      { i with metadata := inherit i (h'.tree.item y).metadata }).item x = h'.tree.item x :=
    fun x hx => item_modify_of_ne _ hx _
  refine ⟨⟨hh.toDiffersInMetadata.modify id _, fun x hx => ?_, fun x hx => ?_, fun x hx z hz => ?_⟩,
    List.mem_cons_self, fun x hx => ?_, fun x hx => ?_⟩
  · rw [List.mem_cons, not_or] at hx
    rw [hother x hx.1]
    exact hh.untouched x hx.2
  · rcases List.mem_cons.1 hx with rfl | hx
    · rw [handed_of_source hs, item_modify_self _ hlt, hother y (hne y hh.done),
        hh.untouched x hnew]
    · rw [hother x (hne x hx), hh.settled x hx]
      cases hsource : t.source x with
      | none => rw [handed_of_none hsource, handed_of_none hsource]
      | some z =>
        rw [handed_of_source hsource, handed_of_source hsource,
          hother z (hne z (hh.sources x hx z hsource))]
  · rcases List.mem_cons.1 hx with rfl | hx
    · obtain rfl : y = z := Option.some.inj (hs.symm.trans hz)
      exact List.mem_cons_of_mem x hh.done
    · exact List.mem_cons_of_mem id (hh.sources x hx z hz)
  · obtain ⟨hx', he⟩ := hh.kept x hx
    exact ⟨List.mem_cons_of_mem id hx', (hother x (hne x hx')).trans he⟩
  · rcases List.mem_cons.1 hx with rfl | hx
    · exact .inr .refl
    · exact (hh.new x hx).imp_right fun hyx => .head hs hyx

/-- Handing down entries to an item, where the items in the middle of that lead to it. -/
theorem Handing.handDown {h : Handover} (hh : t.Handing h) (hend : t.SourcesEnd) {bound : Nat}
    {waiting : List ItemId} (hn : waiting.Nodup)
    (hw : ∀ w ∈ waiting, Relation.TransGen t.InheritsFrom w id)
    (hb : t.size < bound + waiting.length) :
    t.HandsDown h id (handDown bound waiting h id) := by
  induction bound generalizing waiting id h with
  | zero =>
    -- more items wait than there are
    have hle : waiting.length ≤ t.ids.length := by
      refine (List.subperm_of_subset hn fun w hw' => (t.mem_ids w).2 ?_).length_le
      obtain ⟨_, hwx, _⟩ := Relation.TransGen.head'_iff.1 (hw w hw')
      exact lt_of_inheritsFrom hwx
    simp only [ids, List.length_map, List.length_range] at hle
    omega
  | succ bound ih =>
    rw [ItemTree.handDown, hh.source_eq]
    split
    · next hid => exact ⟨hh, hid, fun x hx => ⟨hx, rfl⟩, fun x hx => .inl hx⟩
    · next hid =>
      split
      · next hs => exact hh.sourceless hid hs
      · next source hs =>
        have hnew : id ∉ waiting := fun hmem => hend.acyclic id (hw id hmem)
        rw [if_neg hnew]
        have hsource : t.HandsDown h source (ItemTree.handDown bound (id :: waiting) h source) := by
          refine ih hh (List.nodup_cons.2 ⟨hnew, hn⟩) (fun w hw' => ?_)
            (by simp only [List.length_cons]; omega)
          rcases List.mem_cons.1 hw' with rfl | hw'
          · exact .single hs
          · exact (hw w hw').tail hs
        exact hsource.take hid hs fun hback => hend.acyclic id (.head' hs hback)

/-! ### All items -/

theorem handing_foldl (hend : t.SourcesEnd) {h : Handover} (hh : t.Handing h) :
    let h' := l.foldl (handDown (t.size + 1) []) h
    t.Handing h' ∧ ∀ x, x ∈ l ∨ x ∈ h.done → x ∈ h'.done := by
  induction l generalizing h with
  | nil => exact ⟨hh, fun x hx => hx.resolve_left List.not_mem_nil⟩
  | cons id rest ih =>
    have hid : t.HandsDown h id (handDown (t.size + 1) [] h id) :=
      hh.handDown hend List.nodup_nil (fun w hw => absurd hw List.not_mem_nil) (by simp)
    obtain ⟨hall, hdone⟩ := ih hid.toHanding
    refine ⟨hall, fun x hx => hdone x ?_⟩
    rcases hx with hx | hx
    · rcases List.mem_cons.1 hx with rfl | hx
      · exact .inr hid.done
      · exact .inl hx
    · exact .inr (hid.kept x hx).1

/-- Entries that have been handed down to all items, in whatever order. -/
theorem inherited_inheritAlong (hend : t.SourcesEnd) (hl : ∀ x, x.index < t.size → x ∈ l) :
    t.Inherited (t.inheritAlong l) := by
  obtain ⟨hall, hdone⟩ := handing_foldl (l := l) hend (.start t)
  refine ⟨hall.toDiffersInMetadata, fun x => ?_⟩
  by_cases hx : x.index < t.size
  · exact hall.settled x (hdone x (.inl (hl x hx)))
  · rw [handed_of_none]
    · exact congrArg Item.metadata ((item_of_size_le (hall.size ▸ Nat.le_of_not_lt hx)).trans
        (item_of_size_le (Nat.le_of_not_lt hx)).symm)
    · cases hs : t.source x with
      | none => rfl
      | some y => exact absurd (lt_of_inheritsFrom hs) hx

/-- Only one tree follows the rule. -/
theorem Inherited.unique {t₁ t₂ : ItemTree} (hend : t.SourcesEnd) (h₁ : t.Inherited t₁)
    (h₂ : t.Inherited t₂) : t₁ = t₂ := by
  refine ext_item (h₁.size.trans h₂.size.symm) fun x => ?_
  have hmetadata : (t₁.item x).metadata = (t₂.item x).metadata := by
    induction x using WellFounded.induction hend with
    | _ x ih =>
      rw [h₁.handed, h₂.handed]
      cases hs : t.source x with
      | none => rw [handed_of_none hs, handed_of_none hs]
      | some y => rw [handed_of_source hs, handed_of_source hs, ih y hs]
  rw [h₁.item, h₂.item, hmetadata]

/-! ### Chains of sources end -/

theorem kind_of_inheritsFrom (h : t.InheritsFrom x y) :
    (t.item x).kind = some .simple ∨ (t.item x).kind = some .reference := by
  unfold InheritsFrom source at h
  split at h
  · next hk => exact .inl hk
  · next hk => exact .inr hk
  · cases h

theorem source_of_simple (hk : (t.item x).kind = some .simple) :
    t.source x = t.simpleSource x := by
  unfold source
  rw [hk]

/-- The source of a simple object is its synthetic child, or else its one simple source. -/
theorem simpleSource_eq_some (h : t.simpleSource x = some y) :
    t.syntheticChild x = some y ∨ t.syntheticChild x = none ∧ t.simpleSources x = [y] := by
  unfold simpleSource at h
  split at h
  · next hc _ => exact .inl (hc.trans h)
  · next hc hs =>
    cases h
    exact .inr ⟨hc, hs⟩
  · cases h

/-- The source of a reference is what it refers to. -/
theorem refers_of_inheritsFrom (hk : (t.item x).kind = some .reference)
    (h : t.InheritsFrom x y) : t.Refers x y := by
  unfold InheritsFrom source at h
  rw [hk] at h
  obtain ⟨target, htarget, hy⟩ := Option.bind_eq_some_iff.1 h
  cases target with
  | builtin type => cases hy
  | item z =>
    cases hy
    exact ⟨hk, htarget⟩

theorem mem_itemReferences_of_referred (h : y ∈ t.referred x) :
    y ∈ (t.item x).itemReferences := by
  unfold referred at h
  split at h
  · cases h
  · exact h

theorem acc_of_not_source (h : ∀ y, ¬t.InheritsFrom x y) :
    Acc (Function.swap t.InheritsFrom) x := ⟨x, fun y hy => absurd hy (h y)⟩

section Ending

variable (h : t.Regular)
include h

/-- A synthetic child inherits from nothing. -/
theorem Regular.acc_synthetic (hc : t.syntheticChild x = some c) :
    Acc (Function.swap t.InheritsFrom) c := by
  have hk := ((h.items c).synthetic (mem_of_syntheticChild hc).2).2
  refine acc_of_not_source fun y hy => ?_
  rcases kind_of_inheritsFrom hy with hs | hr
  · rw [hk] at hs
    cases hs
  · rw [hk] at hr
    cases hr

/-- The source of what is founded is founded as well, if it is no synthetic child: it is on every
path to a fundamental type. -/
theorem Regular.acc_of_founded (hx : t.Founded x) : Acc (Function.swap t.InheritsFrom) x := by
  induction hx with
  | @split x hk hs =>
    refine ⟨x, fun y (hy : t.source x = some y) => ?_⟩
    rw [source_of_simple hk] at hy
    rcases simpleSource_eq_some hy with hc | ⟨hc, _⟩
    · exact h.acc_synthetic hc
    · rw [hc] at hs
      cases hs
  | fundamental hk =>
    refine acc_of_not_source fun y hy => ?_
    rcases kind_of_inheritsFrom hy with hk' | hk' <;> cases hk.symm.trans hk'
  | names _ hk hn =>
    refine acc_of_not_source fun y hy => ?_
    -- all that a reference refers to is an item
    obtain ⟨z, hz, _⟩ := h.reference ((kind_of_inheritsFrom hy).resolve_left hk)
    unfold namesFundamental at hn
    rw [hz] at hn
    simp at hn
  | @via x y _ hxy hy ih =>
    have hmem := mem_itemReferences_of_referred hxy
    refine ⟨x, fun w hw => ?_⟩
    change t.InheritsFrom x w at hw
    rcases kind_of_inheritsFrom hw with hk | hk
    · rw [InheritsFrom, source_of_simple hk] at hw
      rcases simpleSource_eq_some hw with hc | ⟨_, hsources⟩
      · exact h.acc_synthetic hc
      · have hsource : y ∈ t.simpleSources x :=
          List.mem_filter.2 ⟨hmem, h.leadsToFundamental hy.grounded (h.lt_of_referred hxy)⟩
        rw [hsources, List.mem_singleton] at hsource
        exact hsource ▸ ih
    · have hrefers := refers_of_inheritsFrom hk hw
      rw [itemReferences_of_references (target?_eq_some hrefers.2), List.mem_singleton] at hmem
      exact hmem ▸ ih

end Ending

/-- **Chains of sources end** in a resolved tree: a chain of references does, and it leaves off at
what inherits from nothing, or at a simple object, which is founded. -/
theorem Reachable.sourcesEnd (h : t.Reachable) (hr : t.Resolved) : t.SourcesEnd := by
  have hregular := hr.wellFormed.regular
  have hacc : ∀ x, (t.item x).kind ≠ some .reference → Acc (Function.swap t.InheritsFrom) x :=
    fun x hk => by
      by_cases hs : (t.item x).kind = some .simple
      · exact hregular.acc_of_founded (h.founded hs)
      · exact acc_of_not_source fun y hy => (kind_of_inheritsFrom hy).elim hs hk
  refine ⟨fun x => ?_⟩
  obtain ⟨last, hends, _⟩ := hr.ends x
  generalize Target.item last = target at hends
  induction hends with
  | @halt x _ hstep =>
    refine hacc x fun hk => ?_
    obtain ⟨y, _, hgo⟩ := hregular.reference hk
    rw [hgo] at hstep
    cases hstep
  | @go x y _ hstep _ ih =>
    refine ⟨x, fun z hz => ?_⟩
    have hrefers := hregular.refers_of_follows hstep
    have htarget := hrefers.2.symm.trans (refers_of_inheritsFrom hrefers.1 hz).2
    cases htarget
    exact ih

end Schemata.ItemTree
