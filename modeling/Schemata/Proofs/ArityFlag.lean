import Schemata.Proofs.Inheritance
import Schemata.Proofs.Tree.Meanings

/-! What is left of the flag that refines an arity.

The flag steers whether a collection of a collection is a list of it, and an item loses
it when it is classified as a list or a reference. But the passes that come after take
it for an attribute like any other, and every collection may have it: a configured
value fills it in again, and a reference takes it over from its target, which has kept
its own if it is no link itself. So what a link says is used up, and still it may end
up with a flag that it does not say. -/
namespace Schemata.ItemTree

variable {t t' t₂ t₃ m r : ItemTree} {plugin : Plugin} {options : Options} {id x y c : ItemId}
  {key : String}

/-- A list of an item, or a reference to one. -/
def IsLink (t : ItemTree) (x : ItemId) : Prop :=
  (t.item x).kind = some .list ∨ (t.item x).kind = some .reference

theorem IsLink.kind_isSome (h : t.IsLink x) : (t.item x).kind.isSome := by
  rcases h with hk | hk <;> rw [hk] <;> rfl

theorem IsLink.ne_none (h : t.IsLink x) : (t.item x).kind ≠ none :=
  Option.isSome_iff_ne_none.1 h.kind_isSome

/-! ### Classifying -/

/-- The flag that classifying leaves a link: that of a link which has been classified before. -/
def keptFlag (t : ItemTree) (x : ItemId) : Option Entry :=
  if (t.item x).kind.isSome then (t.item x).metadata.find? Key.refinesArity else none

/-- What is judged a link loses its flag. -/
theorem find?_refinesArity_of_kind {v : Verdict} {i : Item} (h : t.verdict id = some v)
    (hk : (v.apply c i).kind = some .list ∨ (v.apply c i).kind = some .reference) :
    (v.apply c i).metadata.find? Key.refinesArity = none := by
  rcases link_of_kind h hk with rfl | rfl <;>
    exact (OrderedMap.find?_erase i.metadata _ _).trans (if_pos rfl)

/-- Classifying an item leaves alone the entries of what has a kind, and a link that is new has no
flag. -/
theorem classifyItem_flags (hid : id.index < t.size) (hok : t.classifyItem id = .ok t') :
    (∀ x, (t.item x).kind.isSome → (t'.item x).metadata = (t.item x).metadata) ∧
      ∀ x, (t.item x).kind = none → t'.IsLink x →
        (t'.item x).metadata.find? Key.refinesArity = none := by
  by_cases hk : (t.item id).kind.isSome
  · rw [classifyItem_known hk] at hok
    cases hok
    exact ⟨fun _ _ => rfl, fun x hx hlink => absurd hx hlink.ne_none⟩
  · rw [Option.not_isSome_iff_eq_none] at hk
    have hjudged := toOption_classifyItem hid hk
    rw [hok] at hjudged
    obtain ⟨v, hv, he⟩ := Option.map_eq_some_iff.1 hjudged.symm
    cases he
    refine ⟨fun x hx => ?_, fun x hx hlink => ?_⟩
    · obtain ⟨k, hkx⟩ := Option.isSome_iff_exists.1 hx
      rw [item_enact_old hid v (lt_size_of_kind hkx)]
      rintro rfl
      rw [hk] at hx
      cases hx
    · by_cases hxi : x = id
      · unfold IsLink at hlink
        rw [hxi, item_enact_self hid] at hlink ⊢
        exact find?_refinesArity_of_kind hv hlink
      · by_cases hold : x.index < t.size
        · exact absurd hx (item_enact_old hid v hold hxi ▸ hlink.ne_none)
        · -- what is new is a synthetic child, and no link
          have hlt : x.index < (t.enact id v).size := hlink.elim lt_size_of_kind lt_size_of_kind
          obtain ⟨_, type, _, he⟩ := split_of_new hid (Nat.le_of_not_lt hold) hlt
          unfold IsLink at hlink
          rw [he] at hlink
          exact hlink.elim nofun nofun

/-- Once all items are classified, a link has the flag that it has kept. -/
theorem find?_refinesArity_classify (ht : t.WellFormed) (hb : t.AllBound)
    (hok : t.classify = .ok t') (hx : t'.IsLink x) :
    (t'.item x).metadata.find? Key.refinesArity = t.keptFlag x := by
  refine (foldlM_ok (fun _ t' => t.Refined t' ∧ ∀ x, t'.IsLink x →
    (t'.item x).metadata.find? Key.refinesArity = t.keptFlag x) hok
    ⟨.refl ht, fun x hx => ?_⟩ fun done id rest t₁ t₂ hwalk hinv hstep => ?_).2 x hx
  · unfold keptFlag
    rw [if_pos hx.kind_isSome]
  · obtain ⟨hr, hflags⟩ := hinv
    have hid : id.index < t₁.size :=
      Nat.lt_of_lt_of_le (ht.rooted.mem_walk_iff.1 (by rw [hwalk]; simp)) hr.grown.size
    have hc := (classification_classifyItem t₁ id).1 t₂ hstep
    have hr₂ := hc.refined hr.wellFormed (fun y => hr.bound y (hb y)) hid
    obtain ⟨hsame, hnew⟩ := classifyItem_flags hid hstep
    refine ⟨hr.trans hr₂, fun x hx => ?_⟩
    cases hk : (t₁.item x).kind with
    | some k =>
      have hx₁ : t₁.IsLink x := by
        unfold IsLink at hx
        rwa [hr₂.kind x k hk, ← hk] at hx
      rw [hsame x (by rw [hk]; rfl)]
      exact hflags x hx₁
    | none =>
      have hnone : (t.item x).kind = none := by
        refine Option.eq_none_iff_forall_ne_some.2 fun k hk' => ?_
        rw [hr.kind x k hk'] at hk
        cases hk
      unfold keptFlag
      rw [hnew x hk hx, hnone]
      rfl

/-- Binding names changes no entries of what has a kind. -/
theorem keptFlag_bindNames (ht : t.WellFormed) (hok : t.bindNames = .ok t') :
    t'.keptFlag x = t.keptFlag x := by
  have hkind := kind_bindNames ht x
  rw [hok] at hkind
  change (t'.item x).kind = _ at hkind
  unfold keptFlag
  rw [hkind]
  split
  · next hk =>
    obtain ⟨k, hk⟩ := Option.isSome_iff_exists.1 hk
    rw [(boundFrom_of_bindNames ht.rooted hok).metadata (lt_size_of_kind hk)]
  · rfl

/-! ### What comes after -/

/-- What comes after an item's own entry: a configured value, and failing that what the source has,
for an attribute of the schema other than the name. -/
theorem ruledEntry_eq_or (own : Metadata) (schema : Schema)
    (source : Option (String → Option Entry)) (key : String) :
    ruledEntry own schema source key = (own.find? key).or
      (if key ≠ Key.name && schema.contains key then
        (source.bind fun entries => entries key).map fun entry =>
          { entry with provenance := .cloned }
        else none) := by
  unfold ruledEntry
  cases own.find? key <;> rfl

/-- What an item has under a key in the end: what it has once it is classified, or else a configured
value, or else what its source has. -/
theorem Furnishing.find?_metadata (h : Furnishing plugin options t₂ t₃ m r)
    (hx : hasSchema (r.item x)) :
    (r.item x).metadata.find? key = (((t₂.item x).metadata.find? key).or
      (configured (options.config.valuesFor plugin.name) (r.item x).schema (r.item x) key)).or
      (if key ≠ Key.name && (r.item x).schema.contains key then
        ((r.source x).bind fun y => (r.item y).metadata.find? key).map fun entry =>
          { entry with provenance := .cloned }
        else none) := by
  have hschema : hasSchema (t₃.item x) :=
    (h.alike_settled.field hasSchema (fun _ => rfl) x).symm.trans hx
  -- of the item itself only its place shows in a configured entry
  have hconfigured : ∀ schema, configured (options.config.valuesFor plugin.name) schema (t₃.item x)
      key = configured (options.config.valuesFor plugin.name) schema (r.item x) key := fun schema =>
    (h.alike_settled.field (configured _ schema · key) (fun _ => rfl) x).symm
  rw [h.metadata_eq, h.inherited.handed, find?_handed, ruledEntry_eq_or,
    h.describedFrom.find?_metadata, if_pos hschema, h.settledFrom.field Item.metadata fun _ _ => rfl,
    hconfigured, ← h.schema_eq, ← h.alike.source]
  cases r.source x with
  | none => rfl
  | some y => simp only [Option.map_some, Option.bind_some, h.metadata_eq]

/-! ### All together -/

theorem source_of_list (hk : (t.item x).kind = some .list) : t.source x = none := by
  unfold source
  rw [hk]

theorem source_of_refers (h : t.Refers x y) : t.source x = some y := by
  unfold source
  rw [h.1, h.2]
  rfl

/-- Links have a schema. -/
theorem WellFormed.hasSchema_of_isLink (h : t.WellFormed) (hx : t.IsLink x) :
    hasSchema (t.item x) := by
  obtain ⟨k, hk, hne, hform⟩ : ∃ k, (t.item x).kind = some k ∧ k ≠ .extension ∧
      (t.item x).form = .declaration := by
    rcases hx with hk | hk
    · exact ⟨.list, hk, nofun, ((h.regular.items x).suits _ hk).1⟩
    · exact ⟨.reference, hk, nofun, ((h.regular.items x).suits _ hk).1⟩
  refine hasSchema_of_kind h hk hne ?_
  rintro rfl
  rw [h.rooted.rootForm] at hform
  cases hform

theorem provenance_of_configured {values : OrderedMap String Value} {schema : Schema} {i : Item}
    {entry : Entry} (h : configured values schema i key = some entry) :
    entry.provenance = .config := by
  unfold configured at h
  split at h
  · obtain ⟨value, _, rfl⟩ := Option.map_eq_some_iff.1 h
    rfl
  · cases h

/-- The flag of a link: the one that it has kept, or else a configured one, or else that of its
source. -/
theorem find?_refinesArity_resolve (h : t.Reachable) (hr : t.resolve plugin options = .ok r)
    (hx : r.IsLink x) :
    (r.item x).metadata.find? Key.refinesArity = ((t.keptFlag x).or
      (configured (options.config.valuesFor plugin.name) (r.item x).schema (r.item x)
        Key.refinesArity)).or
      (if (r.item x).schema.contains Key.refinesArity then
        ((r.source x).bind fun y => (r.item y).metadata.find? Key.refinesArity).map fun entry =>
          { entry with provenance := .cloned }
        else none) := by
  obtain ⟨t₁, t₂, t₃, t₄, hs⟩ := stages_of_resolve h.wellFormed hr
  obtain ⟨m, hf⟩ := furnishing_of_stages h hr hs
  have hkept : (t₂.item x).metadata.find? Key.refinesArity = t.keptFlag x := by
    unfold IsLink at hx
    rw [hs.alike.field Item.kind fun _ => rfl] at hx
    rw [find?_refinesArity_classify hs.refined_bound.wellFormed hs.allBound hs.classified hx,
      keptFlag_bindNames h.wellFormed hs.bound]
  rw [← hkept]
  exact hf.find?_metadata ((resolve_ok h.wellFormed hr).2.wellFormed.hasSchema_of_isLink hx)

/-- **What a link says about refining the arity is used up, but it may get the flag again.** In a
tree that resolves, a list has the flag exactly if it was one before and had the flag then, or if its
schema has the attribute and there is a configured value. A reference has it for the same reasons,
and failing that as a clone, exactly if its schema has the attribute and its target has the flag in
the end. What is written on an item that is only now classified as a link is never kept. -/
theorem resolve_refinesArity (h : t.Reachable) (hr : t.resolve plugin options = .ok r) :
    (∀ x, (r.item x).kind = some .list →
      (r.item x).metadata.find? Key.refinesArity =
        (t.keptFlag x).or (configured (options.config.valuesFor plugin.name) (r.item x).schema
          (r.item x) Key.refinesArity)) ∧
    (∀ x, (r.item x).kind = some .reference → ∃ y, (r.item x).target? = some (.item y) ∧
      (r.item x).metadata.find? Key.refinesArity =
        ((t.keptFlag x).or (configured (options.config.valuesFor plugin.name) (r.item x).schema
          (r.item x) Key.refinesArity)).or
          (if (r.item x).schema.contains Key.refinesArity then
            ((r.item y).metadata.find? Key.refinesArity).map fun entry =>
              { entry with provenance := .cloned }
            else none)) ∧
    ∀ x, r.IsLink x → (t.item x).kind = none → ∀ entry,
      (r.item x).metadata.find? Key.refinesArity = some entry → entry.provenance ≠ .explicit := by
  refine ⟨fun x hk => ?_, fun x hk => ?_, fun x hx hnone entry he => ?_⟩
  · rw [find?_refinesArity_resolve h hr (.inl hk), source_of_list hk]
    simp
  · obtain ⟨y, hy⟩ := (resolve_ok h.wellFormed hr).2.wellFormed.regular.refers hk
    refine ⟨y, hy.2, ?_⟩
    rw [find?_refinesArity_resolve h hr (.inr hk), source_of_refers hy]
    rfl
  · rw [find?_refinesArity_resolve h hr hx] at he
    rcases Option.or_eq_some_iff.1 he with he | ⟨_, he⟩
    · rcases Option.or_eq_some_iff.1 he with he | ⟨_, he⟩
      · unfold keptFlag at he
        rw [hnone] at he
        cases he
      · rw [provenance_of_configured he]
        decide
    · split at he
      · obtain ⟨e, _, rfl⟩ := Option.map_eq_some_iff.1 he
        show Provenance.cloned ≠ .explicit
        decide
      · cases he

/-- A collection that is to refine the arity, which says nothing for a type that is no item, and a
reference to it. -/
def refinedNames : ItemTree :=
  ((ofSource "").push root (((Item.declaration (some "names") "string").withArity
    .zeroOrMore).withMetadata Key.refinesArity (.bool true))).push root
      (Item.declaration (some "more") "names")

/-- The reference has the flag of the collection as a clone. -/
theorem refinedNames_cloned :
    refinedNames.Reachable ∧ ∃ r entry,
      refinedNames.resolve { name := "any", capabilities := .allElements } {} = .ok r ∧
      r.Refers ⟨2⟩ ⟨1⟩ ∧ (r.item ⟨1⟩).metadata.find? Key.refinesArity = some entry ∧
      entry.provenance = .explicit ∧
      (r.item ⟨2⟩).metadata.find? Key.refinesArity =
        some { entry with provenance := .cloned } := by
  have hdeclared : refinedNames.Declared :=
    ((Declared.source "").push (p := root) (by decide)
      (((Item.Declared.declaration (some "names") "string").withArity .zeroOrMore).withMetadata
        Key.refinesArity (.bool true))).push (p := root) (by decide)
      (Item.Declared.declaration (some "more") "names")
  have hfacts :
      (refinedNames.resolve { name := "any", capabilities := .allElements } {}).toOption.map
        (fun r => ((r.item ⟨2⟩).kind, (r.item ⟨2⟩).target?,
          ((r.item ⟨1⟩).metadata.find? Key.refinesArity).map Entry.provenance,
          (r.item ⟨2⟩).schema.contains Key.refinesArity,
          (configured (({} : Options).config.valuesFor "any") (r.item ⟨2⟩).schema (r.item ⟨2⟩)
            Key.refinesArity).isSome)) =
        some (some .reference, some (.item ⟨1⟩), some .explicit, true, false) := by
    decide +kernel
  cases hr : refinedNames.resolve { name := "any", capabilities := .allElements } {} with
  | error e =>
    rw [hr] at hfacts
    cases hfacts
  | ok r =>
    rw [hr] at hfacts
    simp only [Except.toOption, Option.map_some, Option.some.injEq, Prod.mk.injEq] at hfacts
    obtain ⟨hkind, htarget, hexplicit, hschema, hconfigured⟩ := hfacts
    obtain ⟨entry, hentry, hprovenance⟩ := Option.map_eq_some_iff.1 hexplicit
    obtain ⟨y, hy, hflag⟩ := (resolve_refinesArity hdeclared.reachable hr).2.1 ⟨2⟩ hkind
    rw [htarget] at hy
    cases hy
    have hkept : refinedNames.keptFlag ⟨2⟩ = none := by
      unfold keptFlag
      rw [hdeclared.kind]
      rfl
    have hnone := Option.not_isSome_iff_eq_none.1 (Bool.eq_false_iff.1 hconfigured)
    refine ⟨hdeclared.reachable, r, entry, rfl, ⟨hkind, htarget⟩, hentry, hprovenance, ?_⟩
    rw [hflag, hkept, hnone, hschema, hentry]
    rfl

end Schemata.ItemTree
