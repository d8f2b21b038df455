import Schemata.Proofs.Precedence
import Schemata.Proofs.Tree.Constraints
import Schemata.Proofs.Tree.Marking
import Schemata.Proofs.Tree.Meanings

/-! Items that agree with their sources.

What an item leaves open for a constraint it takes over from its source, and an
admission makes the same of the two entries, because both items have the same
attribute for it. In a declared tree everything that items have themselves is written
on them. So, unless the configuration has a value for the constraint, an item without
a written one agrees with its source, and so does a mere alias. -/
namespace Schemata

/-! ### Written entries -/

namespace Item

/-- All entries are written on the item itself. -/
def AllWritten (i : Item) : Prop :=
  ∀ key entry, i.metadata.find? key = some entry → entry.provenance = .explicit

theorem Declared.allWritten {i : Item} (h : i.Declared) : i.AllWritten := by
  induction h with
  | object | declaration | variant | extension => exact nofun
  | withBase _ _ ih | withArity _ _ ih | withRole _ _ ih => exact ih
  | external _ ih => exact ih
  | withMetadata _ key' value ih =>
    intro key entry he
    have he' := (OrderedMap.find?_insert _ key' key _).symm.trans he
    split at he'
    · cases he'
      rfl
    · exact ih key entry he'
  | placedAt _ _ ih =>
    intro key entry he
    have he' := (OrderedMap.find?_mapValues _ _ key).symm.trans he
    obtain ⟨written, hw, rfl⟩ := Option.map_eq_some_iff.1 he'
    exact ih key written hw

end Item

theorem ItemTree.Declared.allWritten {t : ItemTree} (h : t.Declared) (x : ItemId) :
    (t.item x).AllWritten :=
  h.item (P := Item.AllWritten) (fun _ _ _ hi => hi.allWritten) (fun _ _ hw => hw) x

theorem Metadata.mem_explicitKeys {m : Metadata} {key : String} {entry : Entry}
    (he : m.find? key = some entry) (hp : entry.provenance = .explicit) :
    key ∈ m.explicitKeys := by
  unfold explicitKeys
  rw [← OrderedMap.find?_isSome_iff, OrderedMap.find?_filter, he]
  simp [hp]

/-! ### Admitted values -/

/-- What an admission makes of a value of an attribute, or of none. -/
def Attribute.admitted (a : Attribute) : Option Value → Option Value
  | some v => (a.type.convert v).toOption
  | none => a.defaultValue

theorem Item.Admission.value?_metadata {i known typed i' : Item} {key : String} {a : Attribute}
    (h : Admission i known typed i')
    (hnames : ∀ a ∈ i.schema.values, i.schema.find? a.name = some a)
    (ha : i.schema.find? key = some a) (hname : a.name = key) :
    Metadata.value? i'.metadata key = a.admitted (Metadata.value? i.metadata key) := by
  cases he : i.metadata.find? key with
  | some entry =>
    obtain ⟨value, hconvert, hfound⟩ := h.find?_metadata ha he
    unfold Metadata.value?
    rw [hfound, he]
    exact (congrArg Except.toOption hconvert).symm
  | none =>
    have hopen := (h.find?_typed ha).1 he
    have hnone : Metadata.value? i.metadata key = none := by
      unfold Metadata.value?
      rw [he]
      rfl
    rw [hnone]
    cases hv : Metadata.value? i'.metadata key with
    | some v =>
      rcases h.typed_or_default hnames ha hv with ⟨htyped, _⟩ | ⟨_, hdefault⟩
      · unfold Metadata.value? at htyped
        rw [hopen] at htyped
        cases htyped
      · exact hdefault.symm
    | none =>
      -- a default would have filled in
      refine Eq.symm (Option.eq_none_iff_forall_ne_some.2 fun v hdefault => ?_)
      have hmem : (key, ⟨v, .default, typed.location⟩) ∈ typed.openDefaults := by
        refine List.mem_filterMap.2 ⟨a, ?_, ?_⟩
        · rw [h.schema_typed]
          exact (OrderedMap.mem_values_iff _ _).2 ⟨key, ha⟩
        · unfold OrderedMap.contains
          rw [hname, hopen, show a.defaultValue = some v from hdefault]
          rfl
      have hfilled : (i'.metadata.find? key).isSome := by
        rw [h.fills]
        refine (congrArg Option.isSome (OrderedMap.find?_insertAll _ _ key)).trans ?_
        rw [Option.isSome_or, Option.isSome_map, List.find?_isSome.2
          ⟨_, List.mem_reverse.2 hmem, by simp⟩]
        rfl
      unfold Metadata.value? at hv
      rw [Option.map_eq_none_iff.1 hv] at hfilled
      cases hfilled

namespace ItemTree

open Search

variable {t t₁ t₂ t₃ m r a : ItemTree} {plugin : Plugin} {options : Options} {x y z : ItemId}
  {key : String} {type : Fundamental}

/-- A reference that says something about a constraint of what it refers to is augmenting. -/
theorem isAugmenting_of_constraint {refinement : Refinement} (hr : r.Resolved)
    (hk : (r.item x).kind = some .reference) (htype : r.fundamentalOf x = some type)
    (hkey : type.hasAttribute key) (hmem : key ∈ refinement.explicitKeys) :
    r.isAugmenting x refinement = .ok true := by
  obtain ⟨target, hend⟩ := hr.chains x hk
  have hkind : r.schemaKind x = .ok (r.kindOf target) := by
    unfold schemaKind endKind
    rw [if_pos hk, hend]
    rfl
  obtain ⟨before, hattributes⟩ := kindAttributes_of_fundamentalOf hr htype hkind
  have haugmenting : r.augmentingAttributes x = .ok
      ((r.kindAttributes x (r.kindOf target)).filter fun a => !a.metadataOnly) := by
    unfold augmentingAttributes endKind kindAttributes
    rw [hend]
    dsimp only [Except.map]
    cases r.kindOf target <;> rfl
  unfold isAugmenting
  split
  · rfl
  · rw [haugmenting]
    refine congrArg Except.ok (List.any_eq_true.2 ⟨key, hmem, ?_⟩)
    obtain ⟨attribute_, hattribute, hname⟩ := List.any_eq_true.1 hkey
    have hmore : attribute_.metadataOnly = false := by
      have hall : ∀ a ∈ type.attributes, a.metadataOnly = false := by cases type <;> decide
      exact hall attribute_ hattribute
    rw [hattributes]
    refine List.any_eq_true.2 ⟨attribute_, List.mem_filter.2
      ⟨List.mem_append_right _ hattribute, by rw [hmore]; rfl⟩, hname⟩

/-- What an object takes its value over from has a name and wraps the same type. -/
theorem Regular.fundamentalOf_source (ht : a.Regular) (hk : (a.item x).kind = some .simple)
    (hn : a.syntheticChild x = none) (hy : (a.simpleSources x).head? = some y)
    (htype : a.fundamentalOf x = some type) :
    (a.item y).name.isSome ∧ a.fundamentalOf y = some type := by
  have hmem := (List.mem_filter.1 (List.mem_of_mem_head? hy)).1
  refine ⟨(ht.references x y (mem_itemReferences.1 hmem)).2, ?_⟩
  rw [fundamentalOf_eq_some_iff] at htype ⊢
  exact (ends_iff_of_go (fundamentalStep_of_source hk hn hy)).1 htype

/-- A declared tree on its way through a resolution and an admission, for a plugin that brings no
attributes of its own for constraints. -/
structure Admittance (plugin : Plugin) (options : Options) (t t₁ t₂ t₃ m r a : ItemTree) : Prop
    extends Passage plugin options t t₁ t₂ t₃ m r where
  declared : t.Declared
  resolves : t.resolve plugin options = .ok r
  admits : r.admitAll plugin options = .ok a
  leaves : plugin.LeavesConstraints

namespace Admittance

variable (h : Admittance plugin options t t₁ t₂ t₃ m r a)
include h

theorem retyped : r.Retyped a := retyped_admitAll h.admits

theorem admitted : a.Admitted := (admitted_of_admitAll h.resolved h.admits).2

theorem boundFrom : t.BoundFrom t₁ :=
  boundFrom_of_bindNames h.declared.reachable.wellFormed.rooted h.bound

theorem fundamentalOf : a.fundamentalOf = r.fundamentalOf := h.retyped.alike.fundamentalOf

/-- Once items are classified, the tree stays alike. -/
theorem alike_admitted : t₂.Alike a := h.alike_classified.trans h.retyped.alike

/-- The root wraps nothing. -/
theorem ne_root (htype : a.fundamentalOf x = some type) : x ≠ root := by
  rintro rfl
  have hrooted := h.refined_bound.wellFormed.rooted
  obtain ⟨v, c, hv, hitem, _⟩ := h.classifiedFrom.old root hrooted.size
  have hcompound : t₁.verdict root = some (.plain .compound) := by
    unfold verdict objectVerdict
    rw [hrooted.rootForm, hrooted.rootParent]
    rfl
  obtain rfl : v = .plain .compound := Option.some.inj (hv.symm.trans hcompound)
  have hkind : (a.item root).kind = some .compound := by
    rw [h.alike_admitted.field Item.kind fun _ => rfl, hitem]
    rfl
  rcases kind_of_ends (fundamentalOf_eq_some_iff.1 htype) with hk | hk | hk <;>
    rw [hkind] at hk <;> cases hk

/-! ### Taking over -/

/-- The admission makes the same of the values of a constraint, whatever items they are of. -/
theorem value?_constraint (htype : a.fundamentalOf x = some type)
    (hkey : type.hasAttribute key) : ∃ attribute_ : Attribute,
      type.attributes.find? (fun a => a.name = key) = some attribute_ ∧
      (r.item x).schema.find? key = some attribute_ ∧
      Metadata.value? (a.item x).metadata key =
        attribute_.admitted (Metadata.value? (r.item x).metadata key) := by
  have hx := h.ne_root htype
  rw [h.fundamentalOf] at htype
  have hw := h.declared.reachable.wellFormed
  obtain ⟨hnames, hschema⟩ := find?_schema hw h.resolves h.leaves hx htype
  obtain ⟨hlt, hparent, hext, _⟩ := hasSchema_of_fundamentalOf h.resolved hx htype
  obtain ⟨known, typed, hadmission⟩ := item_admitAll h.resolved.wellFormed h.admits hlt hparent hext
  obtain ⟨attribute_, hmem, hname⟩ := List.any_eq_true.1 hkey
  obtain ⟨found, hfound⟩ : ∃ found, type.attributes.find? (fun a => a.name = key) = some found :=
    Option.isSome_iff_exists.1 (List.find?_isSome.2 ⟨attribute_, hmem, by simpa using hname⟩)
  have hfind := (hschema key hkey).trans hfound
  exact ⟨found, hfound, hfind, hadmission.value?_metadata hnames hfind
    (of_decide_eq_true (List.find?_some (p := fun a : Attribute => a.name = key) hfound))⟩

/-- An item that leaves a constraint open agrees with its source. -/
theorem agrees_of_open (htx : a.fundamentalOf x = some type)
    (hty : a.fundamentalOf y = some type) (hkey : type.hasAttribute key)
    (hopen : (m.item x).metadata.find? key = none) (hsource : m.source x = some y) :
    Metadata.value? (a.item x).metadata key = Metadata.value? (a.item y).metadata key := by
  obtain ⟨attribute_, hfound, hschema, hvx⟩ := h.value?_constraint htx hkey
  obtain ⟨attribute', hfound', _, hvy⟩ := h.value?_constraint hty hkey
  obtain rfl : attribute_ = attribute' := Option.some.inj (hfound.symm.trans hfound')
  have htaken := h.inherited.find?_of_source hopen hsource (ne_name_of_hasAttribute hkey)
    (h.schema_eq x ▸ OrderedMap.contains_of_find? hschema)
  rw [← h.metadata_eq, ← h.metadata_eq] at htaken
  rw [hvx, hvy]
  unfold Metadata.value?
  rw [htaken, Option.map_map]
  rfl

/-- What is open once names are bound, or is handed over, stays open without a configured value. -/
theorem open_of_unconfigured (hx : x.index < t₁.size) (hroot : x ≠ root)
    (hconfig : (options.config.valuesFor plugin.name).find? key = none)
    (hopen : (t₁.item x).metadata.find? key = none ∨ t₁.handsOver x key) :
    (m.item x).metadata.find? key = none := by
  have hclassified : (t₂.item x).metadata.find? key = none := by
    obtain ⟨v, c, hv, hitem, _⟩ := h.classifiedFrom.old x hx
    have herase : (t₁.item x).metadata.find? key = none →
        ((t₁.item x).metadata.erase Key.refinesArity).find? key = none := fun hn => by
      rw [OrderedMap.find?_erase, hn, ite_self]
    rcases hopen with hn | hh
    · rw [hitem]
      cases v with
      | plain k => exact hn
      | list => exact herase hn
      | reference => exact herase hn
      | split type =>
        refine (OrderedMap.find?_filter _ _ key).trans ?_
        rw [hn]
        rfl
    · obtain ⟨type, hsplit, hhas⟩ := h.verdict_of_handsOver hx hroot hh
      obtain rfl : v = .split type := Option.some.inj (hv.symm.trans hsplit)
      rw [hitem]
      refine (OrderedMap.find?_filter_key _ (fun key => !type.hasAttribute key) key).trans ?_
      rw [hhas]
      rfl
  rw [h.describedFrom.find?_metadata, h.settledFrom.field Item.metadata fun _ _ => rfl]
  unfold configured
  rw [hconfig]
  simp [hclassified]

/-! ### Synthetic children -/

/-- An object with a synthetic child has handed its fundamental type over to it. -/
theorem split_of_syntheticChild (hchild : a.syntheticChild x = some z) :
    x.index < t₁.size ∧ ∃ type, t₁.verdict x = some (.split type) ∧
      a.fundamentalOf x = some type ∧ a.fundamentalOf z = some type ∧ m.source x = some z := by
  have hchild₂ : t₂.syntheticChild x = some z := by
    rw [← h.alike_admitted.syntheticChild]
    exact hchild
  have hw₂ := h.classifiedFrom.refined.wellFormed
  obtain ⟨hmem, hsynthetic⟩ := mem_of_syntheticChild hchild₂
  obtain ⟨hlt, hparent⟩ := hw₂.rooted.listed x z (List.mem_append_right _ hmem)
  -- before the classification nothing is synthetic
  have hnew : t₁.size ≤ z.index := by
    by_contra hn
    have hold := h.classifiedFrom.refined.grown.isSynthetic z (Nat.lt_of_not_le hn)
    have hk := ((h.refined_bound.wellFormed.regular.items z).synthetic (hold ▸ hsynthetic)).2
    rw [h.kindless] at hk
    cases hk
  obtain ⟨x', type, hx, hverdict, hitem, hz⟩ := h.classifiedFrom.new z hnew hlt
  obtain rfl : x' = x := by
    rw [hz] at hparent
    exact Option.some.inj hparent
  have hk : (a.item x').kind = some .simple := by
    rw [h.alike_admitted.field Item.kind fun _ => rfl, hitem]
    rfl
  have hkz : (a.item z).kind = some .fundamental := by
    rw [h.alike_admitted.field Item.kind fun _ => rfl, hz]
    rfl
  have htarget : (a.item z).target? = some (.builtin (.fundamental type)) := by
    rw [h.alike_admitted.field Item.target? fun _ => rfl, hz]
    rfl
  have hendz : Ends a.fundamentalStep z (some type) := by
    refine .halt ?_
    unfold fundamentalStep
    rw [hkz, htarget]
    rfl
  have hnil : a.simpleSources x' = [] := by
    rcases value_of_simple h.resolved h.admits hk with ⟨_, hnil⟩ | ⟨hnone, _⟩
    · exact hnil
    · rw [hchild] at hnone
      cases hnone
  refine ⟨hx, type, hverdict, fundamentalOf_eq_some_iff.2 ?_, fundamentalOf_eq_some_iff.2 hendz, ?_⟩
  · exact .go (fundamentalStep_of_synthetic hk hchild) hendz
  · have hsame : m.Alike a := h.alike.trans h.retyped.alike
    rw [← hsame.source, source_of_simple hk]
    unfold simpleSource
    rw [hchild, hnil]

/-- An object agrees with its synthetic child on what it hands over. -/
theorem agrees_syntheticChild (hchild : a.syntheticChild x = some z)
    (htype : a.fundamentalOf x = some type) (hkey : type.hasAttribute key)
    (hconfig : (options.config.valuesFor plugin.name).find? key = none) :
    Metadata.value? (a.item x).metadata key = Metadata.value? (a.item z).metadata key := by
  obtain ⟨hx, type', hverdict, htx, htz, hsource⟩ := h.split_of_syntheticChild hchild
  obtain rfl : type' = type := Option.some.inj (htx.symm.trans htype)
  have hhands : t₁.handsOver x key := by
    obtain ⟨hform, hown⟩ := object_of_split hverdict
    unfold handsOver
    rw [hform, hown]
    simp [hkey]
  exact h.agrees_of_open htx htz hkey
    (h.open_of_unconfigured hx (h.ne_root htx) hconfig (.inr hhands)) hsource

/-! ### Sources and aliases -/

/-- Objects, and whatever has a name, have been declared. -/
theorem lt_of_named (hlt : x.index < a.size)
    (hx : (a.item x).form ≠ .declaration ∨ (a.item x).name.isSome) : x.index < t.size := by
  rw [h.alike_admitted.size] at hlt
  rw [h.alike_admitted.field Item.form fun _ => rfl,
    h.alike_admitted.field Item.name fun _ => rfl] at hx
  have hlt₁ : x.index < t₁.size := by
    by_contra hn
    obtain ⟨_, type, _, _, _, hitem⟩ := h.classifiedFrom.new x (Nat.le_of_not_lt hn) hlt
    rw [hitem] at hx
    rcases hx with hform | hname
    · exact hform rfl
    · cases hname
  have hgrown := h.classifiedFrom.refined.grown
  rw [hgrown.form x hlt₁, hgrown.name x hlt₁] at hx
  exact h.boundFrom.lt_of_named h.declared.reachable.wellFormed.rooted hlt₁ hx

/-- What is written on an item that hands nothing over is written on it in the end. -/
theorem explicit_of_written {entry : Entry} (hx : x.index < t.size)
    (hn : a.syntheticChild x = none) (htype : a.fundamentalOf x = some type)
    (hkey : type.hasAttribute key) (he : (t₁.item x).metadata.find? key = some entry) :
    ∃ e, (a.item x).metadata.find? key = some e ∧ e.provenance = .explicit := by
  have hx₁ : x.index < t₁.size := Nat.lt_of_lt_of_le hx h.boundFrom.size
  have hroot := h.ne_root htype
  have hrefines : key ≠ Key.refinesArity := by
    rintro rfl
    cases type <;> exact absurd hkey (by decide)
  have hkeeps : t₁.handsOver x key = false := by
    refine Bool.eq_false_iff.2 fun hh => ?_
    obtain ⟨type', hv, _⟩ := h.verdict_of_handsOver hx₁ hroot hh
    obtain ⟨c, _, _, _, _, hchild⟩ := h.classifiedFrom.child hx₁ hv
    rw [h.alike_admitted.syntheticChild, hchild] at hn
    cases hn
  have hresolved := h.find?_of_not_handsOver hx₁ hkeeps he hrefines
  obtain ⟨attribute_, _, hschema, _⟩ := h.value?_constraint htype hkey
  rw [h.fundamentalOf] at htype
  obtain ⟨hlt, hparent, hext, _⟩ := hasSchema_of_fundamentalOf h.resolved hroot htype
  obtain ⟨known, typed, hadmission⟩ := item_admitAll h.resolved.wellFormed h.admits hlt hparent hext
  obtain ⟨value, _, hfound⟩ := hadmission.find?_metadata hschema hresolved
  rw [h.boundFrom.metadata hx] at he
  exact ⟨_, hfound, h.declared.allWritten x key entry he⟩

/-- An object without a written entry agrees with the one source of its value. -/
theorem agrees_source (hk : (a.item x).kind = some .simple) (hn : a.syntheticChild x = none)
    (hs : (a.simpleSources x).head? = some y) (htype : a.fundamentalOf x = some type)
    (hkey : type.hasAttribute key)
    (hconfig : (options.config.valuesFor plugin.name).find? key = none)
    (hopen : ∀ entry, (a.item x).metadata.find? key = some entry → entry.provenance ≠ .explicit) :
    Metadata.value? (a.item x).metadata key = Metadata.value? (a.item y).metadata key := by
  have hform := (h.admitted.resolved.wellFormed.regular.items x).suits _ hk
  have hx := h.lt_of_named (lt_size_of_kind hk)
    (.inl (by rw [show (a.item x).form = .object from hform]; simp))
  have hone : a.simpleSources x = [y] := by
    rcases value_of_simple h.resolved h.admits hk with ⟨hsome, _⟩ | ⟨_, hlength⟩
    · rw [hn] at hsome
      cases hsome
    · obtain ⟨s, hsources⟩ := List.length_eq_one_iff.1 hlength
      rw [hsources] at hs ⊢
      exact congrArg (fun s => [s]) (Option.some.inj hs)
  have hopen₁ : (t₁.item x).metadata.find? key = none := by
    cases he : (t₁.item x).metadata.find? key with
    | none => rfl
    | some entry =>
      obtain ⟨e, hfound, hexplicit⟩ := h.explicit_of_written hx hn htype hkey he
      exact absurd hexplicit (hopen e hfound)
  have hty := (h.admitted.resolved.wellFormed.regular.fundamentalOf_source hk hn hs htype).2
  refine h.agrees_of_open htype hty hkey (h.open_of_unconfigured
    (Nat.lt_of_lt_of_le hx h.boundFrom.size) (h.ne_root htype) hconfig (.inl hopen₁)) ?_
  have hsame : m.Alike a := h.alike.trans h.retyped.alike
  rw [← hsame.source, source_of_simple hk]
  unfold simpleSource
  rw [hn, hone]

/-- A constraint that is written on a reference makes it augmenting. -/
theorem open_of_alias (halias : a.IsAlias x) (hx : x.index < t.size)
    (htype : a.fundamentalOf x = some type) (hkey : type.hasAttribute key) :
    (t₁.item x).metadata.find? key = none := by
  have hx₁ : x.index < t₁.size := Nat.lt_of_lt_of_le hx h.boundFrom.size
  cases he : (t₁.item x).metadata.find? key with
  | none => rfl
  | some entry =>
    exfalso
    have hexplicit : entry.provenance = .explicit := by
      rw [h.boundFrom.metadata hx] at he
      exact h.declared.allWritten x key entry he
    have hnamed : key ∈ Metadata.explicitKeys
        ((t₁.item x).metadata.erase Key.refinesArity) := by
      refine Metadata.mem_explicitKeys ?_ hexplicit
      rw [OrderedMap.find?_erase, if_neg]
      · exact he
      · rintro rfl
        cases type <;> exact absurd hkey (by decide)
    obtain ⟨v, c, hv, hitem, _⟩ := h.classifiedFrom.old x hx₁
    have hk : (r.item x).kind = some .reference := by
      rw [← h.retyped.field Item.kind fun _ _ _ => rfl]
      exact halias.1
    have hk₂ : (t₂.item x).kind = some .reference := by
      rw [← h.alike_admitted.field Item.kind fun _ => rfl]
      exact halias.1
    obtain rfl : v = .reference := reference_of_kind hv (hitem ▸ hk₂)
    -- the refinement remembers that the entry was written
    have hrefinement : (m.inheritMetadata.item x).refinement = some
        ⟨(t₁.item x).hasExplicitArity, Metadata.explicitKeys
          ((t₁.item x).metadata.erase Key.refinesArity)⟩ := by
      have htallies := h.describedFrom.toTalliesWith.trans h.inherited.talliesWith
      rw [htallies.refinement x,
        h.settledFrom.field Item.refinement fun _ _ => rfl, hitem]
      rfl
    obtain ⟨b, hb, hmarked⟩ := h.markedFrom.item x
      (h.markedFrom.size ▸ lt_size_of_kind hk)
    have hnot : b = false := by
      have hmark := halias.2
      rw [h.retyped.field Item.isAugmenting fun _ _ _ => rfl, hmarked] at hmark
      exact hmark
    subst hnot
    -- so the mark is set
    unfold augments at hb
    rw [← h.markedFrom.field Item.kind fun _ _ => rfl, hk, hrefinement] at hb
    dsimp only at hb
    rw [← h.markedFrom.isAugmenting, isAugmenting_of_constraint h.resolved hk
      (h.fundamentalOf ▸ htype) hkey hnamed] at hb
    cases hb

/-- A mere alias agrees with its target. -/
theorem agrees_alias (hxy : a.Behind x y) (hname : (a.item x).name.isSome)
    (htype : a.fundamentalOf x = some type) (hkey : type.hasAttribute key)
    (hconfig : (options.config.valuesFor plugin.name).find? key = none) :
    a.fundamentalOf y = some type ∧
      Metadata.value? (a.item x).metadata key = Metadata.value? (a.item y).metadata key := by
  obtain ⟨halias, hrefers⟩ := hxy
  have hx := h.lt_of_named (lt_size_of_kind hrefers.1) (.inr hname)
  have hgo : a.fundamentalStep x = .go y := by
    unfold fundamentalStep
    rw [hrefers.1, hrefers.2]
  have hty : a.fundamentalOf y = some type :=
    fundamentalOf_eq_some_iff.2 ((ends_iff_of_go hgo).1 (fundamentalOf_eq_some_iff.1 htype))
  refine ⟨hty, h.agrees_of_open htype hty hkey (h.open_of_unconfigured
    (Nat.lt_of_lt_of_le hx h.boundFrom.size) (h.ne_root htype) hconfig
    (.inl (h.open_of_alias halias hx htype hkey))) ?_⟩
  have hsame : m.Alike a := h.alike.trans h.retyped.alike
  rw [← hsame.source]
  unfold source
  rw [hrefers.1, hrefers.2]
  rfl

end Admittance

end ItemTree
end Schemata
