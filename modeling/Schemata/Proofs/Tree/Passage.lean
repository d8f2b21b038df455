import Schemata.Proofs.Tree.Describing
import Schemata.Proofs.Tree.Inheriting
import Schemata.Proofs.Tree.Marking
import Schemata.Proofs.Tree.Occurrences
import Schemata.Proofs.Tree.Verdicts

/-! What a resolution makes of the items of a declared tree, pass by pass.

Once names are bound, the result can be told item by item: what each one turns out to
be, the arity that it gets, its schema and the configured values for what it leaves
open, what it inherits, and whether it is a mere alias. Once items are classified, all
of that can be told of every reachable tree (`Furnishing`). -/
namespace Schemata.ItemTree

variable {t t₁ t₂ t₃ m r : ItemTree} {plugin : Plugin} {options : Options} {id x : ItemId}

/-- Up to the configured values, which is all that happens before entries are handed down. -/
def furnish (t : ItemTree) (plugin : Plugin) (options : Options) : Except Interrupted ItemTree := do
  let t ← t.bindNames
  let t ← t.classify
  let t ← t.settleArities
  t.forEach (describeItem plugin (options.config.valuesFor plugin.name))

/-! ### From classified items on -/

/-- The trees that a resolution goes through once items are classified in `t₂`, item by item: `t₃`
once arities are settled, `m` once configured values are filled in, and `r` in the end. -/
structure Furnishing (plugin : Plugin) (options : Options) (t₂ t₃ m r : ItemTree) : Prop where
  settledFrom : t₂.SettledFrom t₃
  described : t₃.forEach (describeItem plugin (options.config.valuesFor plugin.name)) = .ok m
  describedFrom : DescribedFrom plugin (options.config.valuesFor plugin.name) t₃ m
  sourcesEnd : m.SourcesEnd
  inherited : m.Inherited m.inheritMetadata
  marked : m.inheritMetadata.markAliases = .ok r
  markedFrom : m.inheritMetadata.MarkedFrom r

theorem furnishing_of_stages {t₄ : ItemTree} (h : t.Reachable)
    (hr : t.resolve plugin options = .ok r) (hs : Stages plugin options t t₁ t₂ t₃ t₄ r) :
    ∃ m, Furnishing plugin options t₂ t₃ m r := by
  obtain ⟨m, hm, rfl⟩ := map_eq_ok (show Except.map inheritMetadata _ = _ from hs.described)
  have hw₂ := hs.refined_classified.wellFormed
  have hrooted₃ := hw₂.rooted.alike hs.alike_settled
  have hdf := describedFrom_of_forEach hrooted₃ hm
  have hrooted := hrooted₃.alike hdf.toAlike
  have hend : m.SourcesEnd :=
    (hs.alike.sourcesEnd_iff.1 ((h.of_resolve hr).sourcesEnd (resolve_ok h.wellFormed hr).2)).alike
      (hs.alike_settled.trans hdf.toAlike)
  exact ⟨m, settledFrom_of_settleArities hw₂.rooted hs.settled, hm, hdf, hend,
    inherited_inheritAlong hend fun x hx => hrooted.mem_walk_iff.2 hx, hs.marked,
    markedFrom_of_markAliases (hrooted₃.alike hs.tallies_described.toAlike) hs.marked⟩

namespace Furnishing

variable (h : Furnishing plugin options t₂ t₃ m r)
include h

theorem alike : m.Alike r := h.inherited.talliesWith.toAlike.trans h.markedFrom.toAlike

theorem alike_settled : t₃.Alike r := h.describedFrom.toAlike.trans h.alike

theorem metadata_eq (x : ItemId) : (r.item x).metadata = (m.inheritMetadata.item x).metadata :=
  h.markedFrom.field Item.metadata (fun _ _ => rfl) x

theorem schema_eq (x : ItemId) : (r.item x).schema = (m.item x).schema := by
  rw [h.markedFrom.field Item.schema fun _ _ => rfl, h.inherited.item]

end Furnishing

/-! ### All passes -/

/-- The trees that the resolution of a declared tree goes through, item by item: `t₁` once names are
bound, `t₂` once items are classified, `t₃` once arities are settled, `m` once configured values are
filled in, and `r` in the end. -/
structure Passage (plugin : Plugin) (options : Options) (t t₁ t₂ t₃ m r : ItemTree) : Prop where
  bound : t.bindNames = .ok t₁
  refined_bound : t.Refined t₁
  allBound : t₁.AllBound
  kindless : ∀ x, (t₁.item x).kind = none
  classified : t₁.classify = .ok t₂
  classifiedFrom : t₁.ClassifiedFrom t₂
  settled : t₂.settleArities = .ok t₃
  settledFrom : t₂.SettledFrom t₃
  described : t₃.forEach (describeItem plugin (options.config.valuesFor plugin.name)) = .ok m
  describedFrom : DescribedFrom plugin (options.config.valuesFor plugin.name) t₃ m
  sourcesEnd : m.SourcesEnd
  inherited : m.Inherited m.inheritMetadata
  marked : m.inheritMetadata.markAliases = .ok r
  markedFrom : m.inheritMetadata.MarkedFrom r
  resolved : r.Resolved

theorem passage_of_resolve (h : t.Declared) (hr : t.resolve plugin options = .ok r) :
    ∃ t₁ t₂ t₃ m, Passage plugin options t t₁ t₂ t₃ m r := by
  have hw := h.reachable.wellFormed
  obtain ⟨t₁, t₂, t₃, t₄, hs⟩ := stages_of_resolve hw hr
  have hnone : ∀ x, (t₁.item x).kind = none := fun x => by
    have hk := kind_bindNames hw x
    rw [hs.bound] at hk
    exact hk.trans (h.kind x)
  have hcf := classifiedFrom_of_classify hs.refined_bound.wellFormed hs.allBound hnone hs.classified
  obtain ⟨m, hf⟩ := furnishing_of_stages h.reachable hr hs
  exact ⟨t₁, t₂, t₃, m, hs.bound, hs.refined_bound, hs.allBound, hnone, hs.classified, hcf,
    hs.settled, hf.settledFrom, hf.described, hf.describedFrom, hf.sourcesEnd, hf.inherited,
    hf.marked, hf.markedFrom, (resolve_ok hw hr).2⟩

/-- A tree that goes through all passes is resolved. -/
theorem resolve_eq_ok (hbound : t.bindNames = .ok t₁) (hclassified : t₁.classify = .ok t₂)
    (hsettled : t₂.settleArities = .ok t₃)
    (hdescribed : t₃.forEach (describeItem plugin (options.config.valuesFor plugin.name)) = .ok m)
    (hmarked : m.inheritMetadata.markAliases = .ok r) : t.resolve plugin options = .ok r := by
  unfold resolve describe
  rw [hbound]
  show (t₁.classify >>= _) = _
  rw [hclassified]
  show (t₂.settleArities >>= _) = _
  rw [hsettled]
  show (Except.map inheritMetadata _ >>= _) = _
  rw [hdescribed]
  exact hmarked

namespace Passage

variable (h : Passage plugin options t t₁ t₂ t₃ m r)
include h

theorem furnishing : Furnishing plugin options t₂ t₃ m r :=
  ⟨h.settledFrom, h.described, h.describedFrom, h.sourcesEnd, h.inherited, h.marked, h.markedFrom⟩

theorem furnished : t.furnish plugin options = .ok m := by
  unfold furnish
  rw [h.bound]
  show (t₁.classify >>= _) = _
  rw [h.classified]
  show (t₂.settleArities >>= _) = _
  rw [h.settled]
  exact h.described

theorem alike : m.Alike r := h.furnishing.alike

/-- Once arities are settled, they stay as they are. -/
theorem tallies : t₃.TalliesWith r :=
  h.describedFrom.toTalliesWith.trans (h.inherited.talliesWith.trans h.markedFrom.toTalliesWith)

/-- Once items are classified, the tree stays alike. -/
theorem alike_classified : t₂.Alike r :=
  h.settledFrom.toAlike.trans h.furnishing.alike_settled

/-- What is there once names are bound is there in the end. -/
theorem lt_size (hx : x.index < t₁.size) : x.index < r.size :=
  h.alike_classified.size ▸ Nat.lt_of_lt_of_le hx h.classifiedFrom.refined.grown.size

theorem isExtension_eq (hx : x.index < t₁.size) :
    (r.item x).isExtension = (t₁.item x).isExtension := by
  obtain ⟨v, _, _, hitem, _⟩ := h.classifiedFrom.old x hx
  rw [h.alike_classified.field Item.isExtension fun _ => rfl, hitem]
  unfold Item.isExtension
  rw [v.apply_form]

theorem metadata_eq (x : ItemId) : (r.item x).metadata = (m.inheritMetadata.item x).metadata :=
  h.furnishing.metadata_eq x

theorem schema_eq (x : ItemId) : (r.item x).schema = (m.item x).schema := h.furnishing.schema_eq x

end Passage

end Schemata.ItemTree
