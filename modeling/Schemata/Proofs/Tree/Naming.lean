import Schemata.Proofs.OrderedMap
import Schemata.Proofs.Tree.Admitting
import Schemata.Proofs.Tree.Marking
import Schemata.Proofs.Tree.Reachable

/-! Names, and what an admission does to them.

Unless a plugin brings an attribute of its own for it, the name of an item is a
text without a default. So an admission, which works out all values, leaves the
names alone, and what it finds of a scope before it goes on to the items in it
still holds when it is done: no two of them share a name, and none has a name that
a base holds. -/
namespace Schemata

/-! ### The attribute for the name -/

/-- The name is a text, and there is no default for it. -/
structure Schema.NamesByText (s : Schema) : Prop where
  type : ∃ a, s.find? Key.name = some a ∧ a.type = .string
  noDefault : ∀ a ∈ s.values, a.name = Key.name → a.defaultValue = none

/-- The plugin brings no attribute of its own for the name. -/
def Plugin.LeavesName (plugin : Plugin) : Prop :=
  ∀ i, ∀ a ∈ plugin.requiredAttributes i ++ plugin.optionalAttributes i, a.name ≠ Key.name

theorem Schema.namesByText_ofAttributes {attributes : List Attribute}
    (hmem : ∃ a ∈ attributes, a.name = Key.name)
    (hall : ∀ a ∈ attributes, a.name = Key.name → a.type = .string ∧ a.defaultValue = none) :
    (Schema.ofAttributes attributes).NamesByText := by
  have hfind : ∀ k, (Schema.ofAttributes attributes).find? k =
      ((attributes.map fun a => (a.name, a)).reverse.find? fun e => e.1 = k).map Prod.snd :=
    fun k => (OrderedMap.find?_insertAll OrderedMap.empty _ k).trans Option.or_none
  refine ⟨?_, fun a ha hname => ?_⟩
  · rw [hfind]
    obtain ⟨a, ha, hname⟩ := hmem
    cases hf : (attributes.map fun a => (a.name, a)).reverse.find? fun e => e.1 = Key.name with
    | none =>
      have hnone := List.find?_eq_none.1 hf (a.name, a)
        (List.mem_reverse.2 (List.mem_map_of_mem ha))
      exact absurd hname (by simpa using hnone)
    | some e =>
      obtain ⟨b, hb, rfl⟩ := List.mem_map.1 (List.mem_reverse.1 (List.mem_of_find?_eq_some hf))
      have hkey := List.find?_some hf
      exact ⟨b, rfl, (hall b hb (of_decide_eq_true hkey)).1⟩
  · have hvalue := OrderedMap.mem_values_ofList ha
    rw [List.map_map] at hvalue
    obtain ⟨b, hb, rfl⟩ := List.mem_map.1 hvalue
    exact (hall b hb hname).2

namespace Item

variable {i i' known typed : Item} {options : Options} {name : String}

/-! ### One item -/

theorem value?_dropUnknown (hs : i.schema.NamesByText)
    (h : i.dropUnknown options name = .ok known) :
    known.schema = i.schema ∧ known.name = i.name ∧
      Metadata.value? known.metadata Key.name = Metadata.value? i.metadata Key.name := by
  have hknown : known = { i with
      metadata := i.metadata.filter fun key _ => i.schema.contains key } := by
    unfold dropUnknown at h
    dsimp only at h
    split at h
    · cases h
    · cases h
      rfl
  obtain ⟨a, ha, _⟩ := hs.type
  rw [hknown]
  refine ⟨rfl, rfl, ?_⟩
  unfold Metadata.value?
  rw [OrderedMap.find?_filter_key, if_pos (OrderedMap.contains_of_find? ha)]

theorem value?_typeValues (hs : i.schema.NamesByText) (h : i.typeValues = .ok typed) :
    typed.schema = i.schema ∧ typed.name = i.name ∧
      Metadata.value? typed.metadata Key.name = Metadata.value? i.metadata Key.name := by
  obtain ⟨metadata, hmetadata, h⟩ := bind_eq_ok h
  cases h
  refine ⟨rfl, rfl, ?_⟩
  obtain ⟨a, ha, htype⟩ := hs.type
  obtain ⟨hnone, hsome⟩ := OrderedMap.find?_traverse hmetadata Key.name
  unfold Metadata.value?
  cases hentry : i.metadata.find? Key.name with
  | none => rw [hnone hentry]
  | some entry =>
    obtain ⟨entry', hstep, hfound⟩ := hsome entry hentry
    rw [hfound]
    rw [ha] at hstep
    dsimp only at hstep
    -- a name that is no text is refused
    cases hvalue : entry.value with
    | text s =>
      rw [hvalue, htype] at hstep
      cases hstep
      exact congrArg some hvalue.symm
    | _ =>
      rw [hvalue, htype] at hstep
      cases hstep

theorem value?_fillDefaults (hs : i.schema.NamesByText) :
    Metadata.value? i.fillDefaults.metadata Key.name = Metadata.value? i.metadata Key.name := by
  unfold fillDefaults Metadata.value?
  rw [OrderedMap.find?_insertAll, List.find?_eq_none.2]
  · rfl
  · rintro e he hkey
    obtain ⟨a, ha, hdefault⟩ := List.mem_filterMap.1 (List.mem_reverse.1 he)
    split at hdefault
    · cases hdefault
    · obtain ⟨value, hvalue, rfl⟩ := Option.map_eq_some_iff.1 hdefault
      rw [hs.noDefault a ha (of_decide_eq_true hkey)] at hvalue
      cases hvalue

/-- Admitting the metadata of an item leaves its name. -/
theorem effectiveName_admitMetadata (hs : i.schema.NamesByText)
    (h : i.admitMetadata options name = .ok i') : i'.effectiveName = i.effectiveName := by
  obtain ⟨_, _, h⟩ := bind_eq_ok h
  obtain ⟨known, hknown, h⟩ := bind_eq_ok h
  obtain ⟨typed, htyped, h⟩ := bind_eq_ok h
  obtain ⟨_, _, h⟩ := bind_eq_ok h
  cases h
  obtain ⟨hschema₁, hname₁, hvalue₁⟩ := value?_dropUnknown hs hknown
  obtain ⟨hschema₂, hname₂, hvalue₂⟩ := value?_typeValues (hschema₁ ▸ hs) htyped
  have hvalue₃ := value?_fillDefaults (i := typed) (hschema₂ ▸ hschema₁ ▸ hs)
  unfold effectiveName
  rw [hvalue₃, hvalue₂, hvalue₁, show typed.fillDefaults.name = typed.name from rfl, hname₂, hname₁]

end Item

namespace ItemTree

variable {t t' t₁ : ItemTree} {plugin : Plugin} {options : Options} {id x y : ItemId}

/-! ### The schemas of a resolved tree -/

/-- No kind brings an attribute for the name. -/
theorem name_of_mem_kindAttributes {kind : Option Kind} {a : Attribute}
    (ha : a ∈ t.kindAttributes id kind) : a.name ≠ Key.name := by
  have hfundamental : ∀ type : Fundamental, ∀ a ∈ type.attributes, a.name ≠ Key.name :=
      fun type => by
    cases type <;> decide
  have hconstraints : ∀ type : Option Fundamental,
      ∀ a ∈ (type.map Fundamental.attributes).getD [], a.name ≠ Key.name := fun type a ha => by
    cases type with
    | none => cases ha
    | some type => exact hfundamental type a ha
  unfold kindAttributes at ha
  split at ha
  · next k =>
    cases k with
    | fundamental => exact hconstraints _ a ha
    | compound =>
      rw [List.mem_singleton.1 ha]
      decide
    | simple =>
      rcases List.mem_cons.1 ha with rfl | ha
      · decide
      · exact hconstraints _ a ha
    | _ => cases ha
  · cases ha

/-- No arity brings one either. -/
theorem name_of_mem_arityAttributes {arity : Arity} {a : Attribute}
    (ha : a ∈ arityAttributes arity) : a.name ≠ Key.name := by
  have hcollection : ∀ a ∈ collectionAttributes, a.name ≠ Key.name := by decide
  have hoptional : ∀ a ∈ Schemata.optionalAttributes, a.name ≠ Key.name := by decide
  unfold arityAttributes at ha
  split at ha
  · exact hcollection a ha
  · split at ha
    · exact hoptional a ha
    · cases ha

theorem name_of_mem_pluginAttributes (h : plugin.LeavesName) {i : Item} {a : Attribute}
    (ha : a ∈ pluginAttributes plugin i) : a.name ≠ Key.name := by
  rcases List.mem_append.1 ha with ha | ha
  · obtain ⟨b, hb, rfl⟩ := List.mem_map.1 ha
    exact h i b (List.mem_append_left _ hb)
  · obtain ⟨b, hb, rfl⟩ := List.mem_map.1 ha
    exact h i b (List.mem_append_right _ hb)

theorem namesByText_schemaFor (hplugin : plugin.LeavesName) {schema : Schema}
    (h : t.schemaFor plugin id = .ok schema) : schema.NamesByText := by
  have huniversal : ∀ a ∈ universalAttributes, a.name = Key.name →
      a.type = .string ∧ a.defaultValue = none := by
    intro a ha _
    simp only [universalAttributes, List.mem_cons, List.not_mem_nil, or_false] at ha
    rcases ha with rfl | rfl <;> exact ⟨rfl, rfl⟩
  obtain ⟨kind, _, h⟩ := bind_eq_ok h
  cases h
  refine Schema.namesByText_ofAttributes
    ⟨{ name := Key.name, type := .string }, by simp [universalAttributes], rfl⟩
    fun a ha hname => ?_
  simp only [List.mem_append] at ha
  rcases ha with ((ha | ha) | ha) | ha
  · exact huniversal a ha hname
  · exact absurd hname (name_of_mem_kindAttributes ha)
  · exact absurd hname (name_of_mem_pluginAttributes hplugin ha)
  · exact absurd hname (name_of_mem_arityAttributes ha)

/-- The names of all items that have a schema are texts. -/
def NamesByText (t : ItemTree) : Prop :=
  ∀ id, hasSchema (t.item id) → (t.item id).schema.NamesByText

theorem lt_of_hasSchema (h : hasSchema (t.item id)) : id.index < t.size := by
  by_contra hn
  rw [item_of_size_le (Nat.le_of_not_lt hn)] at h
  cases h

theorem schema_describeItem {values : OrderedMap String Value}
    (h : describeItem plugin values t id = .ok t') :
    (hasSchema (t.item id) → ∃ schema, t.schemaFor plugin id = .ok schema ∧
      (t'.item id).schema = schema) ∧ ∀ x, x ≠ id → (t'.item x).schema = (t.item x).schema := by
  unfold describeItem at h
  split at h
  · next hs =>
    split at h
    · next schema hschema =>
      cases h
      refine ⟨fun _ => ⟨schema, hschema, ?_⟩, fun x hx => ?_⟩
      · rw [item_modify_self t (lt_of_hasSchema hs)]
      · rw [item_modify_of_ne t hx]
    · cases h
  · next hs =>
    cases h
    exact ⟨fun hs' => absurd hs' hs, fun _ _ => rfl⟩

/-- Describing a tree makes the names texts. -/
theorem namesByText_describe (hplugin : plugin.LeavesName) (ht : t.Rooted) {config : Config}
    (h : t.describe plugin config = .ok t') : t'.NamesByText := by
  unfold describe at h
  cases hr : t.forEach (describeItem plugin (config.valuesFor plugin.name)) with
  | error e =>
    rw [hr] at h
    cases h
  | ok r =>
    rw [hr] at h
    cases h
    have hall : t.Alike r ∧ ∀ x ∈ t.walk, hasSchema (t.item x) → (r.item x).schema.NamesByText := by
      refine foldlM_ok (fun done t' => t.Alike t' ∧
        ∀ x ∈ done, hasSchema (t.item x) → (t'.item x).schema.NamesByText) hr
        ⟨.refl t, by simp⟩ fun done id rest t₁ t₂ _ hinv hstep => ?_
      have ha := (talliesWith_describeItem plugin (config.valuesFor plugin.name) t₁ id).toAlike
      rw [hstep] at ha
      obtain ⟨hself, hothers⟩ := schema_describeItem hstep
      refine ⟨hinv.1.trans ha, fun x hx hs => ?_⟩
      by_cases hxi : x = id
      · rw [hxi] at hs ⊢
        obtain ⟨schema, hschema, he⟩ := hself ((hinv.1.field hasSchema (fun _ => rfl) id).trans hs)
        exact he ▸ namesByText_schemaFor hplugin hschema
      · rw [hothers x hxi]
        refine hinv.2 x ((List.mem_append.1 hx).resolve_right fun hx => ?_) hs
        exact hxi (List.mem_singleton.1 hx)
    intro x hs
    unfold inheritMetadata at hs ⊢
    rw [(differsInMetadata_inheritAlong r r.walk).item x] at hs ⊢
    have hs' : hasSchema (t.item x) := (hall.1.field hasSchema (fun _ => rfl) x).symm.trans hs
    exact hall.2 x (ht.mem_walk_iff.2 (lt_of_hasSchema hs')) hs'

theorem namesByText_resolve (h : t.WellFormed) (hplugin : plugin.LeavesName)
    (hok : t.resolve plugin options = .ok t') : t'.NamesByText := by
  obtain ⟨t₁, t₂, t₃, t₄, hs⟩ := stages_of_resolve h hok
  have hrooted := hs.refined_classified.wellFormed.rooted.alike hs.alike_settled
  have hnames := namesByText_describe hplugin hrooted hs.described
  have hmarked := markedFrom_of_markAliases (hrooted.alike hs.tallies_described.toAlike) hs.marked
  intro x hx
  rw [hmarked.field Item.schema fun _ _ => rfl]
  exact hnames x ((hs.tallies_marked.field hasSchema (fun _ => rfl) x).symm.trans hx)

/-! ### Scopes -/

/-- All items have the names that they had. -/
def SameNames (t t' : ItemTree) : Prop :=
  ∀ x, (t'.item x).effectiveName = (t.item x).effectiveName

theorem Alike.allBases (h : t.Alike t') : t'.allBases = t.allBases := by
  have hbeyond : t'.basesBeyond = t.basesBeyond := by
    funext id x
    unfold basesBeyond
    rw [h.field Item.isExtension fun _ => rfl, h.field Item.itemReferences fun _ => rfl]
  funext id
  unfold ItemTree.allBases
  rw [hbeyond, h.size, h.field Item.itemReferences fun _ => rfl]

theorem SameNames.heldNames (h : t.SameNames t') (ha : t.Alike t') :
    t'.heldNames = t.heldNames := by
  funext id
  unfold ItemTree.heldNames
  rw [ha.field Item.children fun _ => rfl]
  refine List.filterMap_congr fun c _ => ?_
  rw [ha.field Item.isExtension fun _ => rfl, ha.field Item.isSynthetic fun _ => rfl, h c]

theorem SameNames.inheritedNames (h : t.SameNames t') (ha : t.Alike t') :
    t'.inheritedNames = t.inheritedNames := by
  funext id
  unfold ItemTree.inheritedNames
  rw [ha.field Item.form fun _ => rfl, ha.allBases, h.heldNames ha]
  split
  · refine congrArg _ (List.filter_congr fun base _ => ?_)
    rw [ha.field Item.form fun _ => rfl]
  · rfl

/-- The name of an item in the scope that holds it. -/
def heldName? (i : Item) : Option String :=
  if i.isExtension || i.isSynthetic then none else i.effectiveName

theorem names_takeExtension {taken taken' : Taken} {i : Item}
    (h : takeExtension plugin taken i = .ok taken') : taken'.names = taken.names := by
  unfold takeExtension at h
  split at h
  · cases h
    rfl
  split at h
  · cases h
    rfl
  split at h
  · split at h
    · cases h
      rfl
    · cases h
  · cases h
    rfl

/-- Taking an item adds the name that it has in the scope, which must be new. -/
theorem names_take {taken taken' : Taken} {i : Item} (hi : i.isIgnored → i.isExtension)
    (h : take plugin taken i = .ok taken') :
    heldName? i = none ∧ taken'.names = taken.names ∨
      ∃ name, heldName? i = some name ∧ name ∉ taken.names ∧
        taken'.names = name :: taken.names := by
  unfold take at h
  split at h
  · next hskip =>
    cases h
    refine .inl ⟨if_pos ?_, rfl⟩
    rw [Bool.or_eq_true] at hskip ⊢
    exact hskip.imp_left hi
  next hskip =>
  rw [Bool.or_eq_true, not_or] at hskip
  split at h
  · next hext => exact .inl ⟨if_pos (by rw [hext]; rfl), names_takeExtension h⟩
  next hext =>
  have hheld : heldName? i = i.effectiveName := if_neg (by simp [hext, hskip.2])
  unfold takeName at h
  split at h
  · next hnone =>
    cases h
    exact .inl ⟨hheld.trans hnone, rfl⟩
  next name hname =>
  split at h
  · cases h
  next hnew =>
  cases h
  exact .inr ⟨name, hheld.trans hname, hnew, rfl⟩

/-- What has passed the check of its scope has names that are pairwise different, and none of them
is inherited. -/
theorem checkNames_ok (hi : ∀ c, (t.item c).isIgnored → (t.item c).isExtension)
    (h : t.checkNames plugin id = .ok ()) :
    (t.heldNames id).Nodup ∧ ∀ n ∈ t.heldNames id, n ∉ t.inheritedNames id := by
  obtain ⟨taken, hfold, _⟩ := bind_eq_ok h
  have hall := foldlM_ok (fun done taken => (done.filterMap heldName?).Nodup ∧
      (∀ n ∈ done.filterMap heldName?, n ∉ t.inheritedNames id) ∧
      ∀ n, n ∈ taken.names ↔ n ∈ done.filterMap heldName? ∨ n ∈ t.inheritedNames id) hfold
    (by simp) fun done i rest taken taken' hl ⟨hnodup, hdisjoint, hnames⟩ hstep => ?_
  · obtain ⟨hnodup, hdisjoint, _⟩ := hall
    rw [List.filterMap_map] at hnodup hdisjoint
    exact ⟨hnodup, hdisjoint⟩
  have hignored : i.isIgnored → i.isExtension := by
    obtain ⟨c, _, rfl⟩ := List.mem_map.1 (hl ▸ List.mem_append_right done List.mem_cons_self)
    exact hi c
  rcases names_take hignored hstep with ⟨hnone, hsame⟩ | ⟨name, hname, hnew, hadded⟩
  · rw [List.filterMap_append, List.filterMap_cons_none hnone, List.filterMap_nil, List.append_nil,
      hsame]
    exact ⟨hnodup, hdisjoint, hnames⟩
  rw [hnames, not_or] at hnew
  rw [List.filterMap_append, List.filterMap_cons_some hname, List.filterMap_nil, hadded]
  refine ⟨?_, fun n hn => ?_, fun n => ?_⟩
  · refine List.nodup_append.2 ⟨hnodup, by simp, fun a ha b hb hab => ?_⟩
    rw [hab, List.mem_singleton.1 hb] at ha
    exact hnew.1 ha
  · rcases List.mem_append.1 hn with hn | hn
    · exact hdisjoint n hn
    · exact List.mem_singleton.1 hn ▸ hnew.2
  · rw [List.mem_cons, hnames, List.mem_append, List.mem_singleton, or_assoc, or_left_comm]

/-! ### Admission -/

theorem sameNames_admitEntries (ht : t.Resolved) (hn : t.NamesByText)
    (h : t.admitEntries options id = .ok t') : t.SameNames t' := by
  unfold admitEntries at h
  dsimp only at h
  split at h
  · cases h
    exact fun _ => rfl
  next hskip =>
  rw [Bool.or_eq_true, not_or] at hskip
  obtain ⟨i, hi, rfl⟩ : ∃ i, (t.item id).admitMetadata options (t.qualifiedName id) = .ok i ∧
      t' = t.modify id fun _ => i := by
    cases hm : (t.item id).admitMetadata options (t.qualifiedName id) with
    | error failure =>
      rw [hm] at h
      cases h
    | ok i =>
      rw [hm] at h
      cases h
      exact ⟨i, rfl, rfl⟩
  have hs : hasSchema (t.item id) := hasSchema_of_parent ht.wellFormed
    (by simpa [Option.isSome_iff_ne_none] using hskip.1) (Bool.eq_false_iff.2 hskip.2)
  intro x
  rw [item_modify]
  split
  · next hx =>
    rw [hx.1]
    exact Item.effectiveName_admitMetadata (hn id hs) hi
  · rfl

theorem sameNames_admitExtension (h : t.admitExtension plugin options id = .ok t') :
    t.SameNames t' := by
  unfold admitExtension at h
  dsimp only at h
  split at h
  · cases h
    exact fun _ => rfl
  · split at h
    · cases h
      exact field_modify Item.effectiveName fun _ => rfl
    · cases h

theorem Retyped.namesByText (h : t.Retyped t') (hn : t.NamesByText) : t'.NamesByText := by
  intro x hs
  rw [h.field Item.schema fun _ _ _ => rfl]
  exact hn x ((h.field hasSchema (fun _ _ _ => rfl) x).symm.trans hs)

theorem sameNames_admitItem (ht : t.Resolved) (hn : t.NamesByText)
    (h : admitItem plugin options t id = .ok t') : t.SameNames t' := by
  cases hi : (t.item id).isIgnored with
  | true =>
    unfold admitItem at h
    rw [if_pos hi] at h
    cases h
    exact fun _ => rfl
  | false =>
    obtain ⟨t₁, hc⟩ := checked_of_admitItem h hi
    intro x
    exact (sameNames_admitExtension hc.extension x).trans
      (sameNames_admitEntries ht hn hc.entries x)

/-- In an admitted tree the names in a scope are pairwise different, and none is inherited. -/
theorem scopes_of_admitAll (ht : t.Resolved) (hn : t.NamesByText)
    (h : t.admitAll plugin options = .ok t') (hid : id.index < t.size)
    (hext : (t.item id).isExtension = false) :
    (t'.heldNames id).Nodup ∧ ∀ n ∈ t'.heldNames id, n ∉ t'.inheritedNames id := by
  have hignored := fun x => (ht.wellFormed.regular.items x).ignored
  obtain ⟨hr, hsame, hscopes⟩ := admitAll_each (J := t.SameNames)
    (Q := fun x => (t.heldNames x).Nodup ∧ ∀ n ∈ t.heldNames x, n ∉ t.inheritedNames x)
    hignored (fun _ => rfl)
    (fun t₁ t₂ _ hr hs hstep x =>
      (sameNames_admitItem (ht.alike hr.alike) (hr.namesByText hn) hstep x).trans (hs x))
    (fun t₁ _ _ x hr hs hc => by
      have hi := fun c => ((ht.alike hr.alike).wellFormed.regular.items c).ignored
      rw [← hs.heldNames hr.alike, ← hs.inheritedNames hr.alike]
      exact checkNames_ok hi hc.names) h
  rw [hsame.heldNames hr.alike, hsame.inheritedNames hr.alike]
  exact hscopes id (ht.wellFormed.rooted.mem_walk_iff.2 hid) hext

end ItemTree
end Schemata
