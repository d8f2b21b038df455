import Schemata.Proofs.Order.Chains
import Schemata.Proofs.Tree.Describing
import Schemata.Proofs.Tree.Marking
import Schemata.Proofs.Tree.Occurrences

/-! Arities and entries in trees that differ in the order of children.

Once items are classified no pass adds any more. What each of the remaining passes
writes on an item is told from the chains that the item is on, so that corresponding
items get the same. -/
namespace Schemata

/-- The plugin tells from the name of an item which attributes to ask for. -/
def Plugin.LooksAtNames (plugin : Plugin) : Prop :=
  ∀ i j : Item, i.name = j.name → plugin.requiredAttributes i = plugin.requiredAttributes j ∧
    plugin.optionalAttributes i = plugin.optionalAttributes j

namespace ItemTree

open Search

variable {t u t' u' : ItemTree} {σ : Equiv.Perm ItemId} {x : ItemId} {plugin : Plugin}
  {values : OrderedMap String Value}

/-- Trees stay the same, but for the order of children, when corresponding items do. -/
theorem Reordered.of_items (h : t.Reordered σ u) (ht : t'.size = t.size) (hu : u'.size = u.size)
    (hitem : ∀ x, x.index < t.size → (t'.item x).Matches σ (u'.item (σ x))) : t'.Reordered σ u' :=
  .of_lt (by rw [hu, h.size, ht]) (by simpa only [ht] using h.lt_iff)
    fun x hx => hitem x (ht ▸ hx)

/-! ### Arities -/

theorem Reordered.settleArities (h : t.Reordered σ u) (ht : t.Rooted) (hu : u.Rooted)
    (hok : t.settleArities = .ok t') : ∃ u', u.settleArities = .ok u' ∧ t'.Reordered σ u' := by
  have hs := settledFrom_of_settleArities ht hok
  have hends : ∀ x a, Ends t.arityStep x a → Ends u.arityStep (σ x) a := fun x a hend =>
    hend.rename h.arityStep
  obtain ⟨u', hok'⟩ : ∃ u', u.settleArities = .ok u' := by
    refine settleArities_ok_of_ends hu fun y hy => ?_
    obtain ⟨x, hx, rfl⟩ := h.surjective hy
    obtain ⟨a, hend, _⟩ := hs.item x hx
    exact ⟨a, hends x a hend⟩
  have hs' := settledFrom_of_settleArities hu hok'
  refine ⟨u', hok', h.of_items hs.size hs'.size fun x hx => ?_⟩
  obtain ⟨a, hend, he⟩ := hs.item x hx
  obtain ⟨b, hend', he'⟩ := hs'.item (σ x) (h.lt hx)
  obtain rfl := hend'.unique (hends x a hend)
  rw [he, he']
  exact (h.item x).map (settledAt b) fun _ => rfl

/-! ### Schemas -/

section WellFormed

variable (h : t.Reordered σ u) (ht : t.WellFormed) (hu : u.WellFormed)
include h ht hu

theorem Reordered.schemaFor (hplugin : plugin.LooksAtNames) (x : ItemId) :
    (u.schemaFor plugin (σ x)).toOption = (t.schemaFor plugin x).toOption := by
  have hkind : (u.schemaKind (σ x)).toOption = (t.schemaKind x).toOption := by
    unfold schemaKind
    rw [h.field Item.kind fun _ => rfl]
    split
    · exact h.endKind x
    · rfl
  have hschema : ∀ kind,
      Schema.ofAttributes (universalAttributes ++ u.kindAttributes (σ x) kind ++
        pluginAttributes plugin (u.item (σ x)) ++
        arityAttributes ((u.item (σ x)).arity.getD .one)) =
      Schema.ofAttributes (universalAttributes ++ t.kindAttributes x kind ++
        pluginAttributes plugin (t.item x) ++ arityAttributes ((t.item x).arity.getD .one)) :=
    fun kind => by
      obtain ⟨hrequired, hoptional⟩ := hplugin _ _ (h.field Item.name (fun _ => rfl) x)
      unfold kindAttributes pluginAttributes
      rw [h.fundamentalOf ht hu, h.field Item.arity fun _ => rfl, hrequired, hoptional]
  have hmap : ∀ (t : ItemTree) x, t.schemaFor plugin x = (t.schemaKind x).map fun kind =>
      Schema.ofAttributes (universalAttributes ++ t.kindAttributes x kind ++
        pluginAttributes plugin (t.item x) ++ arityAttributes ((t.item x).arity.getD .one)) :=
    fun t x => by
      unfold ItemTree.schemaFor
      cases t.schemaKind x <;> rfl
  rw [hmap, hmap, toOption_map, toOption_map, hkind, funext hschema]

theorem Reordered.describe (hplugin : plugin.LooksAtNames)
    (hok : t.forEach (describeItem plugin values) = .ok t') :
    ∃ u', u.forEach (describeItem plugin values) = .ok u' ∧ t'.Reordered σ u' := by
  have hd := describedFrom_of_forEach ht.rooted hok
  have hhas : ∀ x, hasSchema (u.item (σ x)) = hasSchema (t.item x) := fun x => by
    unfold hasSchema
    rw [(h.item x).parent, Option.isSome_map, h.field Item.kind fun _ => rfl]
  have hschema : ∀ x schema, t.schemaFor plugin x = .ok schema →
      u.schemaFor plugin (σ x) = .ok schema := fun x schema hx => by
    rw [← toOption_eq_some_iff, h.schemaFor ht hu hplugin, toOption_eq_some_iff]
    exact hx
  obtain ⟨u', hok'⟩ : ∃ u', u.forEach (describeItem plugin values) = .ok u' := by
    refine forEach_describeItem_ok hu.rooted fun y hy => ?_
    obtain ⟨x, rfl⟩ := σ.surjective y
    obtain ⟨schema, hs, _⟩ := hd.item x (hhas x ▸ hy)
    exact ⟨schema, hschema x schema hs⟩
  have hd' := describedFrom_of_forEach hu.rooted hok'
  refine ⟨u', hok', h.of_items hd.size hd'.size fun x _ => ?_⟩
  cases hx : hasSchema (t.item x) with
  | true =>
    obtain ⟨schema, hs, he⟩ := hd.item x hx
    obtain ⟨schema', hs', he'⟩ := hd'.item (σ x) ((hhas x).trans hx)
    obtain rfl := Except.ok.inj (hs'.symm.trans (hschema x schema hs))
    rw [he, he']
    exact (h.item x).map (described values schema') fun _ => rfl
  | false =>
    rw [hd.bare x hx, hd'.bare (σ x) ((hhas x).trans hx)]
    exact h.item x

/-! ### Inherited entries -/

theorem Reordered.sourcesEnd (hend : t.SourcesEnd) : u.SourcesEnd := by
  refine Subrelation.wf (fun {y x} hxy => ?_) (InvImage.wf σ.symm hend)
  show t.source (σ.symm x) = some (σ.symm y)
  rw [h.symm.source hu ht, show u.source x = some y from hxy]
  rfl

theorem Reordered.inherited (hend : t.SourcesEnd) (hi : t.Inherited t') (hi' : u.Inherited u') :
    t'.Reordered σ u' := by
  have hmetadata : ∀ x, (u'.item (σ x)).metadata = (t'.item x).metadata := fun x => by
    induction x using WellFounded.induction hend with
    | _ x ih =>
      rw [hi.handed, hi'.handed]
      cases hs : t.source x with
      | none =>
        rw [handed_of_none hs, handed_of_none (by rw [h.source ht hu, hs]; rfl),
          h.field Item.metadata fun _ => rfl]
      | some y =>
        rw [handed_of_source hs, handed_of_source (y := σ y) (by rw [h.source ht hu, hs]; rfl),
          ih y hs]
        exact h.field (inherit · (t'.item y).metadata) (fun _ => rfl) x
  refine h.of_items hi.size hi'.size fun x _ => ?_
  rw [hi.item, hi'.item, hmetadata]
  exact (h.item x).map (fun i => { i with metadata := (t'.item x).metadata }) fun _ => rfl

/-! ### Aliases -/

theorem Reordered.augments (x : ItemId) :
    (u.augments (σ x)).toOption = (t.augments x).toOption := by
  have hattributes : (u.augmentingAttributes (σ x)).toOption =
      (t.augmentingAttributes x).toOption := by
    unfold augmentingAttributes
    rw [toOption_map, toOption_map, h.endKind, h.fundamentalOf ht hu]
  unfold ItemTree.augments
  rw [h.field Item.kind fun _ => rfl, h.field Item.refinement fun _ => rfl,
    h.field Item.isAugmenting fun _ => rfl]
  split
  · unfold isAugmenting
    split
    · rfl
    · rw [toOption_map, toOption_map, hattributes]
  · rfl

theorem Reordered.markAliases (hok : t.markAliases = .ok t') :
    ∃ u', u.markAliases = .ok u' ∧ t'.Reordered σ u' := by
  have hm := markedFrom_of_markAliases ht.rooted hok
  have haugments : ∀ x b, t.augments x = .ok b → u.augments (σ x) = .ok b := fun x b hb => by
    rw [← toOption_eq_some_iff, h.augments ht hu, toOption_eq_some_iff]
    exact hb
  obtain ⟨u', hok'⟩ : ∃ u', u.markAliases = .ok u' := by
    refine markAliases_ok_of_augments hu.rooted fun y hy => ?_
    obtain ⟨x, hx, rfl⟩ := h.surjective hy
    obtain ⟨b, hb, _⟩ := hm.item x hx
    exact ⟨b, haugments x b hb⟩
  have hm' := markedFrom_of_markAliases hu.rooted hok'
  refine ⟨u', hok', h.of_items hm.size hm'.size fun x hx => ?_⟩
  obtain ⟨b, hb, he⟩ := hm.item x hx
  obtain ⟨b', hb', he'⟩ := hm'.item (σ x) (h.lt hx)
  obtain rfl := Except.ok.inj (hb'.symm.trans (haugments x b hb))
  rw [he, he']
  exact (h.item x).map (withMark b') fun _ => rfl

end WellFormed

end ItemTree
end Schemata
