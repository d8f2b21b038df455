import Schemata.Proofs.Inheritance
import Schemata.Proofs.Tree.Meanings

/-! Resolving a tree once more.

Each pass of a resolution recognizes what it has done before: no name is left to bind,
every item has a kind and an arity, configured values are where they are wanted, what can
be inherited has been, and aliases are marked. So a second resolution goes through the
tree without changing anything. -/
namespace Schemata

/-- The plugin tells from the name, the kind and the arity of an item which attributes to ask
for. -/
def Plugin.LooksAtKinds (plugin : Plugin) : Prop :=
  ∀ i j : Item, i.name = j.name → i.kind = j.kind → i.arity = j.arity →
    plugin.requiredAttributes i = plugin.requiredAttributes j ∧
      plugin.optionalAttributes i = plugin.optionalAttributes j

namespace ItemTree

open Search

variable {t t' t₁ t₂ t₃ m r : ItemTree} {plugin : Plugin} {options : Options}
  {values : OrderedMap String Value} {x y : ItemId}

/-! ### One item -/

/-- Nothing is left to bind on an item. -/
theorem bindItem_bound (hb : (t.item x).rawReferences = [])
    (hn : hasReservedName (t.item x) = false) : t.bindItem x = .ok t := by
  have hsame : t.modify x (fun i => { i with rawReferences := [] }) = t :=
    modify_same (by rw [← hb])
  unfold bindItem
  dsimp only
  rw [hn, if_neg Bool.false_ne_true, hsame, hb]
  rfl

/-- What has an arity keeps it. -/
theorem settleArity_known {a : Arity} (ha : (t.item x).arity = some a) :
    t.settleArity x = .ok t := by
  have hstep := arityStep_of_known ha
  have hsame : t.modify x (settledAt a) = t := modify_same (by
    unfold settledAt
    rw [← ha])
  rw [settleArity_eq_ok (.halt hstep), trail_of_halt hstep]
  exact congrArg Except.ok hsame

/-- Configured values that are there already, or are not wanted, do not come in. -/
theorem fill_eq_self {schema : Schema} {i : Item}
    (h : ∀ key value, values.find? key = some value → schema.contains key →
      i.metadata.contains key) : fill values schema i = i.metadata := by
  have hall : ∀ l : List (String × Value),
      (∀ e ∈ l, schema.contains e.1 → i.metadata.contains e.1) →
        l.foldl (fun metadata e => if schema.contains e.1 && !metadata.contains e.1 then
          metadata.insert e.1 ⟨e.2, .config, i.location⟩ else metadata) i.metadata =
          i.metadata := by
    intro l
    induction l with
    | nil => exact fun _ => rfl
    | cons e rest ih =>
      intro hl
      rw [List.foldl_cons, if_neg]
      · exact ih fun e' he' => hl e' (List.mem_cons_of_mem e he')
      · intro hwanted
        rw [Bool.and_eq_true, Bool.not_eq_true'] at hwanted
        exact absurd (hl e List.mem_cons_self hwanted.1) (by simp [hwanted.2])
  exact hall values.entries fun e he =>
    h e.1 e.2 ((OrderedMap.find?_eq_some_iff values e.1 e.2).2 he)

/-- An item that has its schema, and all of its configured values, is described already. -/
theorem describeItem_known {schema : Schema} (hs : t.schemaFor plugin x = .ok schema)
    (hsame : (t.item x).schema = schema)
    (h : ∀ key value, values.find? key = some value → schema.contains key →
      (t.item x).metadata.contains key) : describeItem plugin values t x = .ok t := by
  unfold describeItem
  split
  · rw [hs]
    refine congrArg Except.ok (modify_same ?_)
    rw [fill_eq_self h, ← hsame]
  · rfl

/-- There is nothing to inherit if the source has no entry for what is open. -/
theorem inherit_eq_self {i : Item} {source : Metadata}
    (h : ∀ key entry, source.find? key = some entry → key ≠ Key.name → i.schema.contains key →
      i.metadata.contains key) : inherit i source = i.metadata := by
  have hnone : (source.filter fun key _ =>
      key ≠ Key.name && !i.metadata.contains key && i.schema.contains key) = ∅ :=
    OrderedMap.filter_eq_empty fun key entry he => by
      by_cases hname : key = Key.name
      · simp [hname]
      · cases hschema : i.schema.contains key with
        | false => simp
        | true => simp [h key entry he hname hschema]
  unfold inherit
  rw [hnone]
  rfl

theorem markAlias_known (h : t.augments x = .ok (t.item x).isAugmenting) :
    t.markAlias x = .ok t := by
  refine eq_ok_of_toOption ?_
  rw [toOption_markAlias, h]
  exact congrArg some (modify_same rfl)

/-! ### The passes -/

/-- What a plugin that looks at kinds asks for depends on what later passes leave alone. -/
theorem TalliesWith.schemaFor_eq (hplugin : plugin.LooksAtKinds) (h : t.TalliesWith t')
    (x : ItemId) : t'.schemaFor plugin x = t.schemaFor plugin x := by
  have harity := h.arity x
  obtain ⟨hrequired, hoptional⟩ := hplugin (t'.item x) (t.item x)
    (h.field Item.name (fun _ => rfl) x) (h.field Item.kind (fun _ => rfl) x) harity
  unfold ItemTree.schemaFor schemaKind kindAttributes pluginAttributes
  dsimp only
  rw [h.endKind, h.fundamentalOf, harity, hrequired, hoptional, h.field Item.kind fun _ => rfl]

theorem DescribedFrom.contains_configured (h : DescribedFrom plugin values t m)
    (hx : hasSchema (t.item x)) {key : String} {value : Value} (hv : values.find? key = some value)
    (hschema : (m.item x).schema.contains key) : ∃ entry,
      (m.item x).metadata.find? key = some entry := by
  rw [h.find?_metadata, if_pos hx]
  unfold configured
  rw [if_pos hschema, hv]
  cases (t.item x).metadata.find? key with
  | some entry => exact ⟨entry, rfl⟩
  | none => exact ⟨_, rfl⟩

namespace Passage

variable (h : Passage plugin options t t₁ t₂ t₃ m r)
include h

/-- An entry that an item has before entries are handed down is there in the end. -/
theorem contains_own {key : String} {entry : Entry}
    (he : (m.item x).metadata.find? key = some entry) : (r.item x).metadata.contains key := by
  rw [h.metadata_eq]
  exact OrderedMap.contains_of_find? (h.inherited.find?_own he)

/-- Only what is declared has a name of its own, and that is not reserved. -/
theorem unreserved (ht : t.Rooted) (x : ItemId) : hasReservedName (r.item x) = false := by
  have hnameless : ∀ i : Item, i.name = none → hasReservedName i = false := fun i hi => by
    unfold hasReservedName
    rw [hi]
    exact Bool.and_false _
  have hbound := boundFrom_of_bindNames ht h.bound
  rw [h.alike_classified.field hasReservedName fun _ => rfl]
  by_cases hx : x.index < t₁.size
  · obtain ⟨v, c, _, he, _⟩ := h.classifiedFrom.old x hx
    have hsame : hasReservedName (t₂.item x) = hasReservedName (t₁.item x) := by
      unfold hasReservedName Item.isExtension
      rw [he, Verdict.apply_form, Verdict.apply_name]
    rw [hsame]
    by_cases hxt : x.index < t.size
    · rw [hbound.field hasReservedName (fun _ _ _ => rfl) (fun _ => rfl) hxt]
      exact hbound.unreserved x hxt
    · obtain ⟨_, _, _, _, hc⟩ := hbound.alternativeOf ht (Nat.le_of_not_lt hxt) hx
      obtain ⟨_, _, hitem⟩ := hc.item
      exact hnameless _ (congrArg Item.name hitem)
  · by_cases hlt : x.index < t₂.size
    · obtain ⟨_, _, _, _, _, hitem⟩ := h.classifiedFrom.new x (Nat.le_of_not_lt hx) hlt
      rw [hitem]
      rfl
    · rw [item_of_size_le (Nat.le_of_not_lt hlt)]
      rfl

theorem bindNames_again (ht : t.Rooted) : r.bindNames = .ok r :=
  foldlM_same fun x hx => by
    obtain ⟨k, hk⟩ := h.resolved.kinds x (h.resolved.wellFormed.rooted.mem_walk_iff.1 hx)
    exact bindItem_bound
      ((h.resolved.wellFormed.regular.items x).bound (Option.isSome_iff_exists.2 ⟨k, hk⟩))
      (h.unreserved ht x)

theorem classify_again : r.classify = .ok r :=
  foldlM_same fun x hx => classifyItem_known (Option.isSome_iff_exists.2
    (h.resolved.kinds x (h.resolved.wellFormed.rooted.mem_walk_iff.1 hx)))

theorem settleArities_again : r.settleArities = .ok r :=
  foldlM_same fun x hx => by
    have hlt := h.resolved.wellFormed.rooted.mem_walk_iff.1 hx
    obtain ⟨a, _, he⟩ := h.settledFrom.item x (h.alike_classified.size ▸ hlt)
    refine settleArity_known (a := a) ?_
    rw [h.tallies.arity x, he]
    rfl

theorem describe_again (hplugin : plugin.LooksAtKinds) :
    r.forEach (describeItem plugin (options.config.valuesFor plugin.name)) = .ok r :=
  foldlM_same fun x _ => by
    cases hx : hasSchema (t₃.item x) with
    | false =>
      unfold describeItem
      rw [h.tallies.field hasSchema fun _ => rfl, hx]
      rfl
    | true =>
      obtain ⟨schema, hschema, he⟩ := h.describedFrom.item x hx
      have hsame : (m.item x).schema = schema := by rw [he]; rfl
      refine describeItem_known ((h.tallies.schemaFor_eq hplugin x).trans hschema)
        ((h.schema_eq x).trans hsame) fun key value hv hkey => ?_
      obtain ⟨entry, hentry⟩ := h.describedFrom.contains_configured hx hv (hsame ▸ hkey)
      exact h.contains_own hentry

/-- Everybody has what there is to inherit. -/
theorem inheritMetadata_again : r.inheritMetadata = r := by
  have hend : r.SourcesEnd := h.sourcesEnd.alike h.alike
  have hlisted : ∀ x, x.index < r.size → x ∈ r.walk :=
    fun x hx => h.resolved.wellFormed.rooted.mem_walk_iff.2 hx
  refine (inherited_inheritAlong hend hlisted).unique hend ⟨.refl r, fun x => ?_⟩
  cases hs : r.source x with
  | none => exact (handed_of_none hs).symm
  | some y =>
    rw [handed_of_source hs]
    refine (inherit_eq_self fun key entry he hname hschema => ?_).symm
    cases hown : (m.item x).metadata.find? key with
    | some own => exact h.contains_own hown
    | none =>
      rw [h.schema_eq] at hschema
      rw [h.metadata_eq] at he ⊢
      have hfound := h.inherited.find?_of_source hown ((h.alike.source ▸ hs : m.source x = some y))
        hname hschema
      rw [he] at hfound
      exact OrderedMap.contains_of_find? hfound

theorem markAliases_again : r.markAliases = .ok r :=
  foldlM_same fun x hx => by
    refine markAlias_known ?_
    have hlt := h.resolved.wellFormed.rooted.mem_walk_iff.1 hx
    obtain ⟨b, hb, he⟩ := h.markedFrom.item x (h.markedFrom.size ▸ hlt)
    have hmark : (r.item x).isAugmenting = b := by rw [he]; rfl
    unfold augments at hb ⊢
    rw [he, h.markedFrom.isAugmenting]
    dsimp only [withMark]
    split
    · next refinement hk hrefinement =>
      rw [hk, hrefinement] at hb
      exact hb
    · rfl

end Passage

/-- **Resolving once more changes nothing.** If a plugin tells from the name, the kind and the arity
of an item which attributes to ask for, then a declared tree that has been resolved is resolved
again for the same plugin and options, and comes out with the same items, each as it is. -/
theorem resolve_again (h : t.Declared) (hplugin : plugin.LooksAtKinds)
    (hr : t.resolve plugin options = .ok r) : r.resolve plugin options = .ok r := by
  obtain ⟨t₁, t₂, t₃, m, hp⟩ := passage_of_resolve h hr
  refine resolve_eq_ok (hp.bindNames_again h.reachable.wellFormed.rooted) hp.classify_again
    hp.settleArities_again (hp.describe_again hplugin) ?_
  rw [hp.inheritMetadata_again]
  exact hp.markAliases_again

/-- An object that is based on another one, which comes after it and is a text of five letters at
least. -/
def forwardBase : ItemTree :=
  ((ofSource "").push root ((Item.object (some "wrapper")).withBase "leaf")).push root
    (((Item.object (some "leaf")).withBase "string").withMetadata "min_length" (.text "5"))

/-- A configuration under which no text has more than ten letters. -/
def shortTexts : Options :=
  { config := ({} : Config).set Config.shared "max_length" (.int 10) }

/-- The first resolution adds a synthetic child, and the first object gets one entry from the
configuration and one from its base. The second one adds nothing. -/
theorem forwardBase_settled :
    forwardBase.Declared ∧
    ({ name := "any", capabilities := .allElements } : Plugin).LooksAtKinds ∧ ∃ r,
      forwardBase.resolve { name := "any", capabilities := .allElements } shortTexts = .ok r ∧
      forwardBase.size = 3 ∧ r.size = 4 ∧
      (r.item ⟨1⟩).metadata.entries.map (fun e => (e.1, e.2.provenance)) =
        [("max_length", .config), ("min_length", .cloned)] ∧
      r.resolve { name := "any", capabilities := .allElements } shortTexts = .ok r := by
  have hdeclared : forwardBase.Declared :=
    ((Declared.source "").push (p := root) (by decide)
      ((Item.Declared.object (some "wrapper")).withBase "leaf")).push (p := root) (by decide)
      (((Item.Declared.object (some "leaf")).withBase "string").withMetadata "min_length"
        (.text "5"))
  have hplugin : ({ name := "any", capabilities := .allElements } : Plugin).LooksAtKinds :=
    fun _ _ _ _ _ => ⟨rfl, rfl⟩
  have hresolved :
      (forwardBase.resolve { name := "any", capabilities := .allElements }
        shortTexts).toOption.map (fun r => (r.size,
          (r.item ⟨1⟩).metadata.entries.map fun e => (e.1, e.2.provenance))) =
        some (4, [("max_length", .config), ("min_length", .cloned)]) := by
    decide +kernel
  obtain ⟨r, hr, hfacts⟩ := Option.map_eq_some_iff.1 hresolved
  rw [toOption_eq_some_iff] at hr
  obtain ⟨hsize, hentries⟩ := Prod.mk.inj hfacts
  exact ⟨hdeclared, hplugin, r, hr, by decide, hsize, hentries,
    resolve_again hdeclared hplugin hr⟩

end ItemTree
end Schemata
