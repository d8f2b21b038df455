import Schemata.Proofs.Order.Entries
import Schemata.Proofs.Order.Kinds
import Schemata.Proofs.Order.Names
import Schemata.Proofs.Tree.Passage

/-! The order of declarations.

All passes of a resolution walk through a tree in order and change it as they go. Yet
none of them lets through how far it has got: what it makes of an item is told from the
tree that the pass starts from. So the same declarations in another order are resolved
in the same way, as long as no two siblings have one name. -/
namespace Schemata.ItemTree

variable {t u r s : ItemTree} {σ : Equiv.Perm ItemId} {plugin : Plugin} {options : Options}

/-- What is resolved in one order is resolved in the other, with the same result. -/
theorem Reordered.resolve (h : t.Reordered σ u) (hd : t.DistinctSiblings) (ht : t.Declared)
    (hu : u.Declared) (hplugin : plugin.LooksAtNames) (hok : t.resolve plugin options = .ok r) :
    ∃ s τ, u.resolve plugin options = .ok s ∧ (∀ x, x.index < t.size → τ x = σ x) ∧
      r.Reordered τ s := by
  obtain ⟨t₁, t₂, t₃, m, hp⟩ := passage_of_resolve ht hok
  -- binding names adds alternatives
  obtain ⟨u₁, τ₁, hbound, hτ₁, h₁⟩ := h.bindNames hd ht hu hp.bound
  have hw₁ := hp.refined_bound.wellFormed
  have hw₁' : u₁.WellFormed := by
    have hrefined := refined_bindNames hu.reachable.wellFormed
    rw [hbound] at hrefined
    exact hrefined.wellFormed
  -- classifying adds synthetic children
  obtain ⟨u₂, τ₂, hclassified, hτ₂, h₂⟩ :=
    h₁.classify hw₁ hw₁' hp.allBound hp.kindless hp.classified
  have hw₂ := hp.classifiedFrom.refined.wellFormed
  have hw₂' : u₂.WellFormed := by
    have hrefined := refined_classify hw₁' (rawReferences_bindNames hu.reachable.wellFormed hbound)
    rw [hclassified] at hrefined
    exact hrefined.wellFormed
  -- nothing is added from here on
  obtain ⟨u₃, hsettled, h₃⟩ := h₂.settleArities hw₂.rooted hw₂'.rooted hp.settled
  have hw₃ := hw₂.alike hp.settledFrom.toAlike
  have hw₃' := hw₂'.alike (settledFrom_of_settleArities hw₂'.rooted hsettled).toAlike
  obtain ⟨n, hdescribed, h₄⟩ := h₃.describe hw₃ hw₃' hplugin hp.described
  have hw₄ := hw₃.alike hp.describedFrom.toAlike
  have hw₄' := hw₃'.alike (describedFrom_of_forEach hw₃'.rooted hdescribed).toAlike
  have hinherited : n.Inherited n.inheritMetadata :=
    inherited_inheritAlong (h₄.sourcesEnd hw₄ hw₄' hp.sourcesEnd)
      fun x hx => hw₄'.rooted.mem_walk_iff.2 hx
  have h₅ := h₄.inherited hw₄ hw₄' hp.sourcesEnd hp.inherited hinherited
  obtain ⟨s, hmarked, h₆⟩ := h₅.markAliases (hw₄.alike hp.inherited.talliesWith.toAlike)
    (hw₄'.alike hinherited.talliesWith.toAlike) hp.marked
  refine ⟨s, τ₂, resolve_eq_ok hbound hclassified hsettled hdescribed hmarked, fun x hx => ?_, h₆⟩
  rw [hτ₂ x (Nat.lt_of_lt_of_le hx hp.refined_bound.grown.size), hτ₁ x hx]

/-- **The order of declarations does not matter.** Let two declared trees differ in the order of
children only, where no two siblings have one name, and let a plugin look at names only. Then one
tree can be resolved exactly if the other can, and the results differ in the order of children
only: corresponding items refer to corresponding ones and have the same kind, arity, schema,
metadata and mark. -/
theorem resolve_reordered (h : t.Reordered σ u) (hd : t.DistinctSiblings) (ht : t.Declared)
    (hu : u.Declared) (hplugin : plugin.LooksAtNames) :
    ((∃ r, t.resolve plugin options = .ok r) ↔ ∃ s, u.resolve plugin options = .ok s) ∧
      ∀ r s, t.resolve plugin options = .ok r → u.resolve plugin options = .ok s →
        ∃ τ : Equiv.Perm ItemId, (∀ x, x.index < t.size → τ x = σ x) ∧ r.Reordered τ s := by
  refine ⟨⟨fun ⟨r, hr⟩ => ?_, fun ⟨s, hs⟩ => ?_⟩, fun r s hr hs => ?_⟩
  · obtain ⟨s, _, hs, _⟩ := h.resolve hd ht hu hplugin hr
    exact ⟨s, hs⟩
  · obtain ⟨r, _, hr, _⟩ := h.symm.resolve (h.distinctSiblings hd) hu ht hplugin hs
    exact ⟨r, hr⟩
  · obtain ⟨s', τ, hs', hτ, hrs⟩ := h.resolve hd ht hu hplugin hr
    obtain rfl := Except.ok.inj (hs'.symm.trans hs)
    exact ⟨τ, hτ, hrs⟩

/-- A choice of two objects that are not declared yet. -/
def undeclaredChoice : ItemTree :=
  (ofSource "").push root
    (Item.variant (some "choice") [⟨"leaf", ∅, .builtin⟩, ⟨"wrapper", ∅, .builtin⟩])

/-- The two objects after it, where the second one is the base of the first. -/
def baseLast : ItemTree :=
  (undeclaredChoice.push root ((Item.object (some "wrapper")).withBase "leaf")).push root
    ((Item.object (some "leaf")).withBase "string")

/-- The same with the base first. -/
def baseFirst : ItemTree :=
  (undeclaredChoice.push root ((Item.object (some "leaf")).withBase "string")).push root
    ((Item.object (some "wrapper")).withBase "leaf")

/-- Both are resolved, with two alternatives and a synthetic child each, and to the same. -/
theorem baseLast_reordered :
    baseLast.Reordered (Equiv.swap ⟨2⟩ ⟨3⟩) baseFirst ∧ baseLast.DistinctSiblings ∧
    baseLast.Declared ∧ baseFirst.Declared ∧
    ({ name := "any", capabilities := .allElements } : Plugin).LooksAtNames ∧
    ∃ r s τ, baseLast.resolve { name := "any", capabilities := .allElements } {} = .ok r ∧
      baseFirst.resolve { name := "any", capabilities := .allElements } {} = .ok s ∧
      r.size = 7 ∧ r.Reordered τ s := by
  have hroot : root.index < undeclaredChoice.size := by decide
  have hchoice : undeclaredChoice.Declared :=
    (Declared.source "").push (p := root) (by decide) (.variant _ _)
  have hleaf : ((Item.object (some "leaf")).withBase "string").Declared :=
    (Item.Declared.object _).withBase "string"
  have hwrapper : ((Item.object (some "wrapper")).withBase "leaf").Declared :=
    (Item.Declared.object _).withBase "leaf"
  have hlast : baseLast.Declared :=
    (hchoice.push hroot hwrapper).push (lt_push (Nat.le_of_lt hroot)) hleaf
  have hfirst : baseFirst.Declared :=
    (hchoice.push hroot hleaf).push (lt_push (Nat.le_of_lt hroot)) hwrapper
  have hreordered : baseLast.Reordered (Equiv.swap ⟨2⟩ ⟨3⟩) baseFirst :=
    reordered_push_push hroot hroot hchoice.reachable.wellFormed hwrapper.fresh hleaf.fresh
  have hdistinct : baseLast.DistinctSiblings := by
    decide +kernel
  have hplugin : ({ name := "any", capabilities := .allElements } : Plugin).LooksAtNames :=
    fun _ _ _ => ⟨rfl, rfl⟩
  have hresolved : (baseLast.resolve
      { name := "any", capabilities := .allElements } {}).toOption.map size = some 7 := by
    decide +kernel
  obtain ⟨r, hr, hsize⟩ := Option.map_eq_some_iff.1 hresolved
  rw [toOption_eq_some_iff] at hr
  obtain ⟨⟨hforth, _⟩, hsame⟩ := resolve_reordered hreordered hdistinct hlast hfirst hplugin
  obtain ⟨s, hs⟩ := hforth ⟨r, hr⟩
  obtain ⟨τ, _, hτ⟩ := hsame r s hr hs
  exact ⟨hreordered, hdistinct, hlast, hfirst, hplugin, r, s, τ, hr, hs, hsize, hτ⟩

end Schemata.ItemTree
