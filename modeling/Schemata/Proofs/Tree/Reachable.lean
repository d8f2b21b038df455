import Schemata.Compilation
import Schemata.Proofs.Tree.Binding
import Schemata.Proofs.Tree.Classifying
import Schemata.Proofs.Tree.Declaring

/-! The trees that declaring leads to, and what is known of them on their way to a graph.

A tree is `Reachable` if it comes from declaring items and resolving, in any order
and however often, where passes may have written any metadata and marks. An item is
declared by a constructor and builders. A clone of one that has been in a tree is
no such item, and trees that such clones are pushed to are left out. All reachable
trees are well-formed. A tree that is resolved has a kind for every item and an end
for every chain of references; one that is admitted has passed its checks. -/
namespace Schemata.ItemTree

variable {t t' a : ItemTree} {plugin : Plugin} {options : Options} {id : ItemId}

/-! ### Resolution -/

theorem refined_resolve (h : t.WellFormed) (plugin : Plugin) (options : Options) :
    t.Refined (leftBy (t.resolve plugin options)) := by
  unfold resolve
  refine leftBy_bind (refined_bindNames h) fun t₁ h₁ hr₁ => ?_
  have hb : t₁.AllBound := rawReferences_bindNames h h₁
  refine leftBy_bind (hr₁.trans (refined_classify hr₁.wellFormed hb)) fun t₂ _ hr₂ => ?_
  refine leftBy_bind (hr₂.trans ((alike_settleArities t₂).refined hr₂.wellFormed))
    fun t₃ _ hr₃ => ?_
  refine leftBy_bind (hr₃.trans ((alike_describe t₃ plugin options.config).refined hr₃.wellFormed))
    fun t₄ _ hr₄ => ?_
  exact hr₄.trans ((alike_markAliases t₄).refined hr₄.wellFormed)

/-! ### Reachable trees -/

/-- What declaring, resolving and admitting can make of the tree of an empty source text. No clones
of items are pushed. -/
inductive Reachable : ItemTree → Prop
  | source (source : String) : Reachable (ofSource source)
  | push {t : ItemTree} (h : t.Reachable) {p : ItemId} (hp : p.index < t.size) {i : Item}
    (hi : i.Declared) : Reachable (t.push p i)
  /-- A resolution changes a tree whether it succeeds or not. -/
  | resolve {t : ItemTree} (h : t.Reachable) (plugin : Plugin) (options : Options) :
    Reachable (leftBy (t.resolve plugin options))
  /-- An admission leaves an alike tree, whether it succeeds or not. -/
  | alike {t t' : ItemTree} (h : t.Reachable) (ha : t.Alike t') : Reachable t'

theorem Reachable.wellFormed (h : t.Reachable) : t.WellFormed := by
  induction h with
  | source source => exact wellFormed_ofSource source
  | push _ hp hi ih => exact ih.push hp hi.fresh
  | resolve _ plugin options ih => exact (refined_resolve ih plugin options).wellFormed
  | alike _ ha ih => exact ih.alike ha

theorem Declared.reachable (h : t.Declared) : t.Reachable := by
  induction h with
  | source source => exact .source source
  | push _ hp hi ih => exact ih.push hp hi

/-! ### Resolved and admitted trees -/

/-- What is known of a resolved tree. -/
structure Resolved (t : ItemTree) : Prop where
  wellFormed : t.WellFormed
  kinds : ∀ id, id.index < t.size → ∃ k, (t.item id).kind = some k
  chains : ∀ id, (t.item id).kind = some .reference → ∃ target, t.chainEnd id = .ok target

theorem Resolved.alike (h : t.Resolved) (ha : t.Alike t') : t'.Resolved where
  wellFormed := h.wellFormed.alike ha
  kinds id hid := by
    rw [ha.field Item.kind fun _ => rfl]
    exact h.kinds id (ha.size ▸ hid)
  chains id hk := by
    rw [ha.field Item.kind fun _ => rfl] at hk
    rw [ha.chainEnd]
    exact h.chains id hk

/-- The trees that a resolution goes through: names are bound, items classified, arities settled,
attributes worked out and aliases marked. -/
structure Stages (plugin : Plugin) (options : Options) (t t₁ t₂ t₃ t₄ t' : ItemTree) : Prop where
  bound : t.bindNames = .ok t₁
  classified : t₁.classify = .ok t₂
  settled : t₂.settleArities = .ok t₃
  described : t₃.describe plugin options.config = .ok t₄
  marked : t₄.markAliases = .ok t'
  allBound : t₁.AllBound
  refined_bound : t.Refined t₁
  refined_classified : t₁.Refined t₂
  alike_settled : t₂.Alike t₃
  tallies_described : t₃.TalliesWith t₄
  tallies_marked : t₄.TalliesWith t'

theorem stages_of_resolve (h : t.WellFormed) (hok : t.resolve plugin options = .ok t') :
    ∃ t₁ t₂ t₃ t₄, Stages plugin options t t₁ t₂ t₃ t₄ t' := by
  obtain ⟨t₁, h₁, hok⟩ := bind_eq_ok hok
  obtain ⟨t₂, h₂, hok⟩ := bind_eq_ok hok
  obtain ⟨t₃, h₃, hok⟩ := bind_eq_ok hok
  obtain ⟨t₄, h₄, hok⟩ := bind_eq_ok hok
  have hr₁ : t.Refined t₁ := by simpa [h₁, leftBy] using refined_bindNames h
  have hb : t₁.AllBound := rawReferences_bindNames h h₁
  have hr₂ : t₁.Refined t₂ := by simpa [h₂, leftBy] using refined_classify hr₁.wellFormed hb
  have ha₃ : t₂.Alike t₃ := by simpa [h₃, leftBy] using alike_settleArities t₂
  have ht₄ : t₃.TalliesWith t₄ := by
    simpa [h₄, leftBy] using talliesWith_describe t₃ plugin options.config
  have ht₅ : t₄.TalliesWith t' := by simpa [hok, leftBy] using talliesWith_markAliases t₄
  exact ⟨t₁, t₂, t₃, t₄, h₁, h₂, h₃, h₄, hok, hb, hr₁, hr₂, ha₃, ht₄, ht₅⟩

namespace Stages

variable {t₁ t₂ t₃ t₄ : ItemTree} (hs : Stages plugin options t t₁ t₂ t₃ t₄ t')
include hs

/-- Once items are classified, the tree stays alike. -/
theorem alike : t₂.Alike t' :=
  (hs.alike_settled.trans hs.tallies_described.toAlike).trans hs.tallies_marked.toAlike

theorem refined : t.Refined t' :=
  (hs.refined_bound.trans hs.refined_classified).trans
    (hs.alike.refined hs.refined_classified.wellFormed)

/-- All items have a kind as soon as they are classified. -/
theorem kinds : ∀ id, id.index < t₂.size → ∃ k, (t₂.item id).kind = some k := fun _ hid =>
  Option.isSome_iff_exists.1
    (kind_classify hs.refined_bound.wellFormed hs.allBound hs.classified hid)

end Stages

theorem resolve_ok (h : t.WellFormed) (hok : t.resolve plugin options = .ok t') :
    t.Refined t' ∧ t'.Resolved := by
  obtain ⟨t₁, t₂, t₃, t₄, hs⟩ := stages_of_resolve h hok
  have hw₃ := hs.refined_classified.wellFormed.alike hs.alike_settled
  refine ⟨hs.refined, Resolved.alike ⟨hw₃, fun id hid => ?_, fun id hk => ?_⟩
    (hs.tallies_described.toAlike.trans hs.tallies_marked.toAlike)⟩
  · rw [hs.alike_settled.field Item.kind fun _ => rfl]
    exact hs.kinds id (hs.alike_settled.size ▸ hid)
  · refine chainEnd_of_describe hs.described id
      (hw₃.rooted.mem_walk_iff.2 (lt_size_of_kind hk)) ?_ hk
    have hform := ((hw₃.regular.items id).suits _ hk).1
    have hne : id ≠ root := by
      rintro rfl
      rw [hw₃.rooted.rootForm] at hform
      cases hform
    exact hasSchema_of_kind hw₃ hk (by simp) hne

/-- What is known of an admitted tree. -/
structure Admitted (t : ItemTree) : Prop where
  resolved : t.Resolved
  admits : ∀ id, id.index < t.size → (t.item id).isExtension = false → t.Admits id

theorem admitted_of_admitAll (h : t.Resolved) (hok : t.admitAll plugin options = .ok t') :
    t.Alike t' ∧ t'.Admitted := by
  obtain ⟨ha, hadmits⟩ := admitAll_ok (fun id => (h.wellFormed.regular.items id).ignored) hok
  refine ⟨ha, h.alike ha, fun id hid hext =>
    hadmits id ?_ ((ha.field Item.isExtension (fun _ => rfl) id).symm.trans hext)⟩
  exact h.wellFormed.rooted.mem_walk_iff.2 (ha.size ▸ hid)

/-- What a compilation has gone through. -/
theorem compileTree_stages {c : Compiled} (hok : t.compileTree plugin options = .ok (a, c)) :
    ∃ r, t.resolve plugin options = .ok r ∧ r.admitAll plugin options = .ok a ∧
      a.build plugin = .ok c := by
  obtain ⟨r, hr, hok⟩ := bind_eq_ok hok
  obtain ⟨a', ha', hok⟩ := bind_eq_ok hok
  obtain ⟨c', hc', hok⟩ := bind_eq_ok hok
  cases hok
  cases hresolve : t.resolve plugin options with
  | error e =>
    rw [hresolve] at hr
    cases hr
  | ok r' =>
    rw [hresolve] at hr
    cases hr
    exact ⟨_, rfl, ha', hc'⟩

theorem Reachable.of_resolve (h : t.Reachable) (hok : t.resolve plugin options = .ok t') :
    t'.Reachable := by
  have hr := h.resolve plugin options
  rwa [hok] at hr

/-- A tree that is built has been resolved and admitted. -/
theorem compileTree_ok (h : t.Reachable) {c : Compiled}
    (hok : t.compileTree plugin options = .ok (a, c)) :
    a.Admitted ∧ (t.OnlyObjectsHold → a.OnlyObjectsHold) ∧ a.build plugin = .ok c := by
  obtain ⟨r, hr, ha, hc⟩ := compileTree_stages hok
  obtain ⟨hrefined, hresolved⟩ := resolve_ok h.wellFormed hr
  obtain ⟨halike, hadmitted⟩ := admitted_of_admitAll hresolved ha
  exact ⟨hadmitted, fun ho => halike.onlyObjectsHold (hrefined.objects ho), hc⟩

end Schemata.ItemTree
