import Schemata.Proofs.Conversion
import Schemata.Proofs.Draft.Wrapping
import Schemata.Proofs.Tree.Describing
import Schemata.Proofs.Tree.Entries

/-! The constraints of what wraps a fundamental type.

Unless a plugin brings attributes of its own for them, the schema of an item that wraps
a fundamental type has the constraints of this type, with their types, defaults and
checks. So what an admission makes of the item's entries for them does not contradict
itself. -/
namespace Schemata

/-! ### Constraints that do not contradict each other -/

/-- The values of constraints of a type do not contradict each other: lengths and bounds are in
order, bounds as doubles; the values of an enumeration are pairwise different texts, at least one,
and as many as the friendly ones. -/
def ConsistentValues (type : Fundamental) (value? : String → Option Value) : Prop :=
  match type with
  | .string => ∀ v w, value? "min_length" = some v → value? "max_length" = some w →
    ∃ least greatest : Int64, v = .int least ∧ w = .int greatest ∧ least ≤ greatest
  | .int => ∀ v w, value? "min" = some v → value? "max" = some w →
    ∃ least greatest : Int64, v = .int least ∧ w = .int greatest ∧
      ¬Float.ofInt greatest.toInt < Float.ofInt least.toInt
  | .number => ∀ v w, value? "min" = some v → value? "max" = some w →
    ∃ least greatest : Float, v = .number least ∧ w = .number greatest ∧ ¬greatest < least
  | .enumeration => ∃ names : List String, value? "values" = some (.list (names.map .text)) ∧
    names ≠ [] ∧ names.Nodup ∧ ∀ v, value? "friendly_values" = some v →
      ∃ friendly : List String, v = .list (friendly.map .text) ∧ friendly.length = names.length
  | _ => True

/-- The constraints of a scalar do not contradict each other. -/
def ScalarShape.Consistent (s : ScalarShape) : Prop := ConsistentValues s.type s.constraints.find?

/-- Only the constraints of the type matter. -/
theorem ConsistentValues.congr {type : Fundamental} {f g : String → Option Value}
    (h : ConsistentValues type f) (hfg : ∀ key, type.hasAttribute key → g key = f key) :
    ConsistentValues type g := by
  cases type with
  | string =>
    unfold ConsistentValues at h ⊢
    rw [hfg "min_length" (by decide), hfg "max_length" (by decide)]
    exact h
  | int | number =>
    unfold ConsistentValues at h ⊢
    rw [hfg "min" (by decide), hfg "max" (by decide)]
    exact h
  | enumeration =>
    unfold ConsistentValues at h ⊢
    rw [hfg "values" (by decide), hfg "friendly_values" (by decide)]
    exact h
  | _ => trivial

/-! ### Schemas with constraints -/

namespace Schema

variable {key : String} {a : Attribute} {attributes before after : List Attribute}

theorem find?_ofAttributes (attributes : List Attribute) (key : String) :
    (ofAttributes attributes).find? key = attributes.reverse.find? fun a => a.name = key := by
  refine ((OrderedMap.find?_insertAll OrderedMap.empty _ key).trans Option.or_none).trans ?_
  rw [← List.map_reverse, List.find?_map, Option.map_map]
  exact congrFun Option.map_id _

/-- Attributes stand under their names. -/
theorem mem_of_find? (h : (ofAttributes attributes).find? key = some a) :
    a ∈ attributes ∧ a.name = key := by
  rw [find?_ofAttributes] at h
  exact ⟨List.mem_reverse.1 (List.mem_of_find?_eq_some h),
    of_decide_eq_true (List.find?_some (p := fun a : Attribute => a.name = key) h)⟩

theorem find?_name (h : a ∈ (ofAttributes attributes).values) :
    (ofAttributes attributes).find? a.name = some a := by
  obtain ⟨key, hkey⟩ := (OrderedMap.mem_values_iff _ _).1 h
  rwa [(mem_of_find? hkey).2]

/-- A constraint is found, unless another attribute of its name comes after it. -/
theorem find?_constraint {type : Fundamental} (hkey : type.hasAttribute key)
    (hafter : ∀ a ∈ after, type.hasAttribute a.name = false) :
    (ofAttributes (before ++ type.attributes ++ after)).find? key =
      type.attributes.find? fun a => a.name = key := by
  have hnone : after.reverse.find? (fun a => a.name = key) = none := by
    refine List.find?_eq_none.2 fun a ha hname => ?_
    have hname' : a.name = key := of_decide_eq_true hname
    rw [← hname', hafter a (List.mem_reverse.1 ha)] at hkey
    cases hkey
  -- no type has two constraints of one name
  have hsame : ∃ a, type.attributes.reverse.find? (fun a => a.name = key) = some a ∧
      type.attributes.find? (fun a => a.name = key) = some a := by
    obtain ⟨a, ha, hname⟩ := List.any_eq_true.1 hkey
    obtain rfl : a.name = key := by simpa using hname
    refine ⟨a, ?_⟩
    cases type <;>
      simp only [Fundamental.attributes, List.mem_cons, List.not_mem_nil, or_false] at ha
    all_goals rcases ha with rfl | rfl | rfl
    all_goals exact ⟨rfl, rfl⟩
  obtain ⟨a, hlast, hfirst⟩ := hsame
  rw [find?_ofAttributes, List.reverse_append, List.reverse_append, List.find?_append, hnone,
    Option.none_or, List.find?_append, hlast, hfirst]
  rfl

end Schema

/-! ### Values of a type -/

namespace AttributeType

variable {v w : Value}

theorem int_of_convert (h : int.convert v = .ok w) : ∃ i, w = .int i := by
  cases hasForm_of_convert h with
  | int i => exact ⟨i, rfl⟩

theorem number_of_convert (h : number.convert v = .ok w) : ∃ x, w = .number x := by
  cases hasForm_of_convert h with
  | number x => exact ⟨x, rfl⟩

/-- A list of texts is one of texts. -/
theorem texts_of_convert (h : (list string).convert v = .ok w) :
    ∃ names : List String, w = .list (names.map .text) := by
  cases hasForm_of_convert h with
  | @list _ ws hws =>
    obtain ⟨names, hnames, -⟩ := exists_map_eq (f := Value.text) (P := fun _ => True) fun w hw => by
      cases hws w hw with
      | text s => exact ⟨s, rfl, trivial⟩
    exact ⟨names, by rw [hnames]⟩

end AttributeType

/-- Texts of which none repeats another are pairwise different. -/
theorem ValueCheck.nodup_of_firstRepeated {before names : List String}
    (h : firstRepeated (before.map .text) (names.map .text) = none) :
    names.Nodup ∧ ∀ name ∈ names, name ∉ before := by
  have hcontains : ∀ (name : String) (l : List String),
      (l.map Value.text).contains (.text name) = decide (name ∈ l) := fun name l => by
    induction l with
    | nil => rfl
    | cons other rest ih =>
      rw [List.map_cons, List.contains_cons, ih]
      show ((name == other) || decide (name ∈ rest)) = _
      rw [Bool.eq_iff_iff]
      simp
  induction names generalizing before with
  | nil => simp
  | cons name rest ih =>
    rw [List.map_cons, firstRepeated, hcontains] at h
    split at h
    · cases h
    · next hnew =>
      rw [decide_eq_true_eq] at hnew
      have hnext : firstRepeated ((before ++ [name]).map .text) (rest.map .text) = none := by
        simpa using h
      obtain ⟨hrest, hbefore⟩ := ih hnext
      refine ⟨List.nodup_cons.2 ⟨fun hmem => hbefore name hmem (by simp), hrest⟩, ?_⟩
      intro other hmem
      rcases List.mem_cons.1 hmem with rfl | hmem
      · exact hnew
      · exact fun hb => hbefore other hmem (List.mem_append_left _ hb)

/-! ### Admitted entries -/

namespace Item.Admission

variable {i known typed i' : Item} {key : String} {a : Attribute} {entry : Entry} {v : Value}
  (h : Admission i known typed i')
include h

/-- An entry in the end is one that was typed, or a default. -/
theorem entry_cases (hnames : ∀ a ∈ i.schema.values, i.schema.find? a.name = some a)
    (he : i'.metadata.find? key = some entry) :
    typed.metadata.find? key = some entry ∨ typed.metadata.find? key = none ∧
      ∃ a, i.schema.find? key = some a ∧ a.defaultValue = some entry.value := by
  cases ht : typed.metadata.find? key with
  | some e =>
    rw [h.find?_of_typed ht] at he
    exact .inl he
  | none =>
    refine .inr ⟨rfl, ?_⟩
    rw [h.fills] at he
    have hinserted :=
      (OrderedMap.find?_insertAll typed.metadata typed.openDefaults key).symm.trans he
    rw [ht, Option.or_none] at hinserted
    obtain ⟨⟨key', e⟩, hfind, rfl⟩ := Option.map_eq_some_iff.1 hinserted
    have hkey : key' = key := of_decide_eq_true
      (List.find?_some (p := fun e : String × Entry => e.1 = key) hfind)
    obtain ⟨a, ha, hdefault⟩ :=
      List.mem_filterMap.1 (List.mem_reverse.1 (List.mem_of_find?_eq_some hfind))
    split at hdefault
    · cases hdefault
    · obtain ⟨value, hvalue, heq⟩ := Option.map_eq_some_iff.1 hdefault
      cases heq
      rw [h.schema_typed] at ha
      have hfound := hnames a ha
      rw [hkey] at hfound
      exact ⟨a, hfound, hvalue⟩

/-- A value in the end is one that was typed, or a default. -/
theorem typed_or_default (hnames : ∀ a ∈ i.schema.values, i.schema.find? a.name = some a)
    (ha : i.schema.find? key = some a) (hv : Metadata.value? i'.metadata key = some v) :
    (Metadata.value? typed.metadata key = some v ∧ ∃ written, a.type.convert written = .ok v) ∨
      typed.metadata.find? key = none ∧ a.defaultValue = some v := by
  obtain ⟨e, he, rfl⟩ := Option.map_eq_some_iff.1 hv
  rcases h.entry_cases hnames he with ht | ⟨ht, b, hb, hdefault⟩
  · obtain ⟨hnone, hsome⟩ := h.find?_typed ha
    cases hi : i.metadata.find? key with
    | none =>
      rw [hnone hi] at ht
      cases ht
    | some written =>
      obtain ⟨value, hconvert, ht'⟩ := hsome written hi
      rw [ht] at ht'
      cases ht'
      exact .inl ⟨congrArg (Option.map Entry.value) ht, written.value, hconvert⟩
  · obtain rfl := Option.some.inj (ha.symm.trans hb)
    exact .inr ⟨ht, hdefault⟩

/-- What was typed has passed its check. -/
theorem passes {check : ValueCheck} (ha : i.schema.find? key = some a)
    (hcheck : a.check = some check) (hv : Metadata.value? typed.metadata key = some v) :
    check.run v typed.metadata = .ok () := by
  obtain ⟨e, he, rfl⟩ := Option.map_eq_some_iff.1 hv
  have hone := forM_eq_ok h.checks (key, e) ((OrderedMap.find?_eq_some_iff _ _ _).1 he)
  dsimp only at hone
  rw [h.schema_typed, ha, Option.bind_some, hcheck] at hone
  dsimp only at hone
  split at hone
  · next hrun => exact hrun
  · cases hone

/-- A required entry is there in the end. -/
theorem exists_of_required (ha : i.schema.find? key = some a) (hname : a.name = key)
    (hr : a.required) : ∃ v, Metadata.value? i'.metadata key = some v := by
  have hcontains := h.required a ((OrderedMap.mem_values_iff _ _).2 ⟨key, ha⟩) hr
  obtain ⟨written, hw⟩ := Option.isSome_iff_exists.1 hcontains
  obtain ⟨value, _, hfound⟩ := h.find?_metadata ha (hname ▸ hw)
  exact ⟨value, congrArg (Option.map Entry.value) hfound⟩

/-- Without a default, a value in the end is one that was typed. -/
theorem typed_of_noDefault (hnames : ∀ a ∈ i.schema.values, i.schema.find? a.name = some a)
    (ha : i.schema.find? key = some a) (hdefault : a.defaultValue = none)
    (hv : Metadata.value? i'.metadata key = some v) :
    Metadata.value? typed.metadata key = some v ∧ ∃ written, a.type.convert written = .ok v := by
  rcases h.typed_or_default hnames ha hv with htyped | ⟨_, hsome⟩
  · exact htyped
  · rw [hdefault] at hsome
    cases hsome

/-- A greatest length is not below the least one, which is one by default. -/
theorem lengths_in_order (hnames : ∀ a ∈ i.schema.values, i.schema.find? a.name = some a)
    (hschema : ∀ key, Fundamental.string.hasAttribute key →
      i.schema.find? key = Fundamental.string.attributes.find? fun a => a.name = key)
    {v w : Value} (hv : Metadata.value? i'.metadata "min_length" = some v)
    (hw : Metadata.value? i'.metadata "max_length" = some w) :
    ∃ least greatest : Int64, v = .int least ∧ w = .int greatest ∧ least ≤ greatest := by
  have hmin := hschema "min_length" (by decide)
  have hmax := hschema "max_length" (by decide)
  obtain ⟨htyped, _, hconvert⟩ := h.typed_of_noDefault hnames hmax rfl hw
  obtain ⟨greatest, rfl⟩ := AttributeType.int_of_convert hconvert
  have hrun := h.passes hmax rfl htyped
  unfold ValueCheck.run at hrun
  dsimp only [Value.asInt?] at hrun
  split at hrun
  · cases hrun
  · next hpositive =>
    rcases h.typed_or_default hnames hmin hv with ⟨hv, _, hconvert⟩ | ⟨_, hdefault⟩
    · obtain ⟨least, rfl⟩ := AttributeType.int_of_convert hconvert
      rw [hv] at hrun
      dsimp only [Option.bind_some, Value.asInt?] at hrun
      split at hrun
      · cases hrun
      · next horder => exact ⟨least, greatest, rfl, rfl, Int64.not_lt.1 horder⟩
    · cases hdefault
      exact ⟨1, greatest, rfl, rfl, Int64.not_lt.1 hpositive⟩

/-- A greatest number is not below the least one, as doubles. -/
theorem bounds_in_order {b : Attribute} {v w : Value} {least greatest : Float}
    (hmax : i.schema.find? "max" = some b) (hcheck : b.check = some .boundOrder)
    (hv : Metadata.value? typed.metadata "min" = some v) (hleast : v.asNumber? = some least)
    (hw : Metadata.value? typed.metadata "max" = some w)
    (hgreatest : w.asNumber? = some greatest) : ¬greatest < least := by
  have hrun := h.passes hmax hcheck hw
  unfold ValueCheck.run at hrun
  dsimp only at hrun
  rw [hv, Option.bind_some, hleast, hgreatest] at hrun
  dsimp only at hrun
  split at hrun
  · cases hrun
  · next horder => exact horder

/-- The values of an enumeration are pairwise different texts, as many as the friendly ones. -/
theorem values_distinct (hnames : ∀ a ∈ i.schema.values, i.schema.find? a.name = some a)
    (hschema : ∀ key, Fundamental.enumeration.hasAttribute key →
      i.schema.find? key = Fundamental.enumeration.attributes.find? fun a => a.name = key) :
    ∃ names : List String,
      Metadata.value? i'.metadata "values" = some (.list (names.map .text)) ∧
      names ≠ [] ∧ names.Nodup ∧
      ∀ v, Metadata.value? i'.metadata "friendly_values" = some v →
        ∃ friendly : List String,
          v = .list (friendly.map .text) ∧ friendly.length = names.length := by
  have hvalues := hschema "values" (by decide)
  have hfriendly := hschema "friendly_values" (by decide)
  obtain ⟨v, hv⟩ := h.exists_of_required hvalues rfl rfl
  obtain ⟨htyped, _, hconvert⟩ := h.typed_of_noDefault hnames hvalues rfl hv
  obtain ⟨names, rfl⟩ := AttributeType.texts_of_convert hconvert
  have hrun := h.passes hvalues rfl htyped
  unfold ValueCheck.run at hrun
  dsimp only [Value.asList?, Option.getD_some] at hrun
  split at hrun
  · cases hrun
  · next hsome =>
    split at hrun
    · cases hrun
    · next hnone =>
      have hdistinct : names.Nodup :=
        (ValueCheck.nodup_of_firstRepeated (show ValueCheck.firstRepeated
          (([] : List String).map .text) (names.map .text) = none from hnone)).1
      refine ⟨names, hv, fun he => hsome (by rw [he]; rfl), hdistinct, fun w hw => ?_⟩
      obtain ⟨hw, _, hconvert⟩ := h.typed_of_noDefault hnames hfriendly rfl hw
      obtain ⟨friendly, rfl⟩ := AttributeType.texts_of_convert hconvert
      have hcount := h.passes hfriendly rfl hw
      unfold ValueCheck.run at hcount
      dsimp only at hcount
      rw [htyped] at hcount
      split at hcount
      · next hlength =>
        refine ⟨friendly, rfl, ?_⟩
        simpa [ValueCheck.lengthOf, Value.asList?] using hlength
      · cases hcount

/-- The entries that an admission makes for the constraints of a type do not contradict each
other. -/
theorem consistentValues {type : Fundamental}
    (hnames : ∀ a ∈ i.schema.values, i.schema.find? a.name = some a)
    (hschema : ∀ key, type.hasAttribute key →
      i.schema.find? key = type.attributes.find? fun a => a.name = key) :
    ConsistentValues type (Metadata.value? i'.metadata) := by
  cases type with
  | string => exact fun v w hv hw => h.lengths_in_order hnames hschema hv hw
  | enumeration => exact h.values_distinct hnames hschema
  | int =>
    intro v w hv hw
    have hmax := hschema "max" (by decide)
    obtain ⟨hv, _, hmin⟩ := h.typed_of_noDefault hnames (hschema "min" (by decide)) rfl hv
    obtain ⟨hw, _, hconvert⟩ := h.typed_of_noDefault hnames hmax rfl hw
    obtain ⟨least, rfl⟩ := AttributeType.int_of_convert hmin
    obtain ⟨greatest, rfl⟩ := AttributeType.int_of_convert hconvert
    exact ⟨least, greatest, rfl, rfl, h.bounds_in_order hmax rfl hv rfl hw rfl⟩
  | number =>
    intro v w hv hw
    have hmax := hschema "max" (by decide)
    obtain ⟨hv, _, hmin⟩ := h.typed_of_noDefault hnames (hschema "min" (by decide)) rfl hv
    obtain ⟨hw, _, hconvert⟩ := h.typed_of_noDefault hnames hmax rfl hw
    obtain ⟨least, rfl⟩ := AttributeType.number_of_convert hmin
    obtain ⟨greatest, rfl⟩ := AttributeType.number_of_convert hconvert
    exact ⟨least, greatest, rfl, rfl, h.bounds_in_order hmax rfl hv rfl hw rfl⟩
  | _ => trivial

end Item.Admission

/-- The plugin brings no attribute of its own for a constraint. -/
def Plugin.LeavesConstraints (plugin : Plugin) : Prop :=
  ∀ i, ∀ a ∈ plugin.requiredAttributes i ++ plugin.optionalAttributes i,
    ∀ type : Fundamental, type.hasAttribute a.name = false

namespace ItemTree

open Search

variable {t r a : ItemTree} {plugin : Plugin} {options : Options} {x : ItemId} {key : String}
  {type : Fundamental} {kind : Option Kind}

/-! ### The schemas of a resolved tree -/

/-- The tree from which a plugin is shown items: they are named and classified, and their arities
are settled. -/
def shown (t : ItemTree) : Except Interrupted ItemTree := do
  let t ← t.bindNames
  let t ← t.classify
  t.settleArities

/-- The schemas of the items once the tree is resolved. -/
theorem schemas_of_resolve (h : t.WellFormed) (hr : t.resolve plugin options = .ok r) :
    ∃ s, t.shown = .ok s ∧ ∀ x, hasSchema (r.item x) → ∃ kind, r.schemaKind x = .ok kind ∧
      (r.item x).schema = Schema.ofAttributes
        (universalAttributes ++ r.kindAttributes x kind ++ pluginAttributes plugin (s.item x) ++
          arityAttributes ((r.item x).arity.getD .one)) := by
  obtain ⟨t₁, t₂, t₃, t₄, hs⟩ := stages_of_resolve h hr
  obtain ⟨m, hm, rfl⟩ := map_eq_ok (show Except.map inheritMetadata _ = _ from hs.described)
  have hrooted := hs.refined_classified.wellFormed.rooted.alike hs.alike_settled
  have hdescribed := describedFrom_of_forEach hrooted hm
  have hmarked := markedFrom_of_markAliases (hrooted.alike hs.tallies_described.toAlike) hs.marked
  have htallies := hs.tallies_described.trans hs.tallies_marked
  have hshown : t.shown = .ok t₃ := by
    unfold shown
    rw [hs.bound]
    show (t₁.classify >>= _) = _
    rw [hs.classified]
    exact hs.settled
  refine ⟨t₃, hshown, fun x hx => ?_⟩
  obtain ⟨schema, hschema, hitem⟩ :=
    hdescribed.item x ((htallies.field hasSchema (fun _ => rfl) x).symm.trans hx)
  have hsame : (r.item x).schema = schema := by
    rw [hmarked.field Item.schema fun _ _ => rfl]
    unfold inheritMetadata
    rw [(differsInMetadata_inheritAlong m m.walk).item x, hitem]
    rfl
  obtain ⟨kind, hkind, hattributes⟩ := bind_eq_ok hschema
  refine ⟨kind, ?_, ?_⟩
  · unfold schemaKind
    rw [htallies.field Item.kind fun _ => rfl, htallies.endKind]
    exact hkind
  · rw [hsame]
    unfold kindAttributes
    rw [htallies.fundamentalOf, htallies.arity x]
    exact (Except.ok.inj hattributes).symm

theorem schema_of_resolve (h : t.WellFormed) (hr : t.resolve plugin options = .ok r)
    (hx : hasSchema (r.item x)) :
    ∃ kind i, r.schemaKind x = .ok kind ∧ (r.item x).schema = Schema.ofAttributes
      (universalAttributes ++ r.kindAttributes x kind ++ pluginAttributes plugin i ++
        arityAttributes ((r.item x).arity.getD .one)) := by
  obtain ⟨s, _, hschemas⟩ := schemas_of_resolve h hr
  obtain ⟨kind, hkind, hschema⟩ := hschemas x hx
  exact ⟨kind, s.item x, hkind, hschema⟩

/-- No two attributes that an arity brings have one name. -/
theorem find?_reverse_arityAttributes {arity : Arity} {b : Attribute}
    (hb : b ∈ arityAttributes arity) :
    (arityAttributes arity).reverse.find? (fun a => a.name = b.name) = some b := by
  unfold arityAttributes at hb ⊢
  split at hb
  · simp only [collectionAttributes, List.mem_cons, List.not_mem_nil, or_false] at hb
    rw [if_pos ‹_›]
    rcases hb with rfl | rfl | rfl | rfl <;> rfl
  · split at hb
    · simp only [optionalAttributes, List.mem_singleton] at hb
      rw [if_neg ‹_›, if_pos ‹_›, hb]
      rfl
    · cases hb

theorem find?_ofAttributes_arity (before : List Attribute) {arity : Arity} {b : Attribute}
    (hb : b ∈ arityAttributes arity) :
    (Schema.ofAttributes (before ++ arityAttributes arity)).find? b.name = some b := by
  rw [Schema.find?_ofAttributes, List.reverse_append, List.find?_append,
    find?_reverse_arityAttributes hb]
  rfl

/-- What the arity of an item brings is in its schema, whatever a plugin says. -/
theorem find?_arityAttribute (h : t.WellFormed) (hr : t.resolve plugin options = .ok r)
    (hx : hasSchema (r.item x)) {b : Attribute}
    (hb : b ∈ arityAttributes ((r.item x).arity.getD .one)) :
    (r.item x).schema.find? b.name = some b := by
  obtain ⟨kind, i, _, hschema⟩ := schema_of_resolve h hr hx
  rw [hschema]
  exact find?_ofAttributes_arity _ hb

/-- What wraps a fundamental type has its constraints. -/
theorem kindAttributes_of_fundamentalOf (hr : r.Resolved) (htype : r.fundamentalOf x = some type)
    (hkind : r.schemaKind x = .ok kind) :
    ∃ before, r.kindAttributes x kind = before ++ type.attributes := by
  have hends := fundamentalOf_eq_some_iff.1 htype
  have hk : kind = some .fundamental ∨ kind = some .simple := by
    unfold schemaKind at hkind
    split at hkind
    · obtain ⟨last, hlast, hne⟩ := hr.ends x
      unfold endKind at hkind
      rw [chainEnd_eq_ok_iff.2 hlast] at hkind
      cases hkind
      rcases kind_of_ends ((hr.wellFormed.regular.ends_fundamental_iff hlast).1 hends) with
        hk | hk | hk
      · exact .inl hk
      · exact absurd hk hne
      · exact .inr hk
    · next hne =>
      cases hkind
      rcases kind_of_ends hends with hk | hk | hk
      · exact .inl hk
      · exact absurd hk hne
      · exact .inr hk
  unfold kindAttributes
  rcases hk with rfl | rfl
  · refine ⟨[], ?_⟩
    rw [htype]
    rfl
  · refine ⟨[{ name := Key.fundamentalName, type := .string,
               defaultValue := some (.text Key.defaultFundamentalName),
               check := some .identifier }], ?_⟩
    rw [htype]
    rfl

theorem hasSchema_of_fundamentalOf (hr : r.Resolved) (hx : x ≠ root)
    (htype : r.fundamentalOf x = some type) :
    x.index < r.size ∧ (r.item x).parent.isSome ∧ (r.item x).isExtension = false ∧
      hasSchema (r.item x) := by
  have hsuits := (hr.wellFormed.regular.items x).suits
  obtain ⟨k, hk, hne, hform⟩ : ∃ k, (r.item x).kind = some k ∧ k ≠ .extension ∧
      (r.item x).form ≠ .extension := by
    rcases kind_of_ends (fundamentalOf_eq_some_iff.1 htype) with hk | hk | hk
    · exact ⟨_, hk, by simp, by simp [(hsuits _ hk).1]⟩
    · exact ⟨_, hk, by simp, by simp [(hsuits _ hk).1]⟩
    · exact ⟨_, hk, by simp, by simp [show (r.item x).form = .object from hsuits _ hk]⟩
  have hlt := lt_size_of_kind hk
  obtain ⟨p, hp, _⟩ := hr.wellFormed.rooted.parent x hlt hx
  exact ⟨hlt, by rw [hp]; rfl, decide_eq_false hform,
    hasSchema_of_kind hr.wellFormed hk hne hx⟩

theorem find?_schema (h : t.WellFormed) (hr : t.resolve plugin options = .ok r)
    (hplugin : plugin.LeavesConstraints) (hx : x ≠ root)
    (htype : r.fundamentalOf x = some type) :
    (∀ a ∈ (r.item x).schema.values, (r.item x).schema.find? a.name = some a) ∧
      ∀ key, type.hasAttribute key →
        (r.item x).schema.find? key = type.attributes.find? fun a => a.name = key := by
  have hresolved := (resolve_ok h hr).2
  obtain ⟨kind, i, hkind, hschema⟩ :=
    schema_of_resolve h hr (hasSchema_of_fundamentalOf hresolved hx htype).2.2.2
  obtain ⟨before, hattributes⟩ := kindAttributes_of_fundamentalOf hresolved htype hkind
  have harity : ∀ type : Fundamental, ∀ a ∈ arityAttributes ((r.item x).arity.getD .one),
      type.hasAttribute a.name = false := by
    have hcollection : ∀ type : Fundamental, ∀ a ∈ collectionAttributes,
        type.hasAttribute a.name = false := fun type => by cases type <;> decide
    have hoptional : ∀ type : Fundamental, ∀ a ∈ Schemata.optionalAttributes,
        type.hasAttribute a.name = false := fun type => by cases type <;> decide
    intro type a ha
    unfold arityAttributes at ha
    split at ha
    · exact hcollection type a ha
    · split at ha
      · exact hoptional type a ha
      · cases ha
  rw [hschema]
  refine ⟨fun a ha => Schema.find?_name ha, fun key hkey => ?_⟩
  rw [hattributes, List.append_assoc, ← List.append_assoc universalAttributes]
  refine Schema.find?_constraint hkey fun a ha => ?_
  rcases List.mem_append.1 ha with ha | ha
  · rcases List.mem_append.1 ha with ha | ha
    · obtain ⟨b, hb, rfl⟩ := List.mem_map.1 ha
      exact hplugin i b (List.mem_append_left _ hb) type
    · obtain ⟨b, hb, rfl⟩ := List.mem_map.1 ha
      exact hplugin i b (List.mem_append_right _ hb) type
  · exact harity type a ha

/-- The entries of an admitted item for the constraints of the type that it wraps do not contradict
each other. -/
theorem consistent_of_admitAll (h : t.WellFormed) (hr : t.resolve plugin options = .ok r)
    (ha : r.admitAll plugin options = .ok a) (hplugin : plugin.LeavesConstraints) (hx : x ≠ root)
    (htype : r.fundamentalOf x = some type) :
    ConsistentValues type (Metadata.value? (a.item x).metadata) := by
  have hresolved := (resolve_ok h hr).2
  obtain ⟨hlt, hparent, hext, _⟩ := hasSchema_of_fundamentalOf hresolved hx htype
  obtain ⟨hnames, hschema⟩ := find?_schema h hr hplugin hx htype
  obtain ⟨known, typed, hadmission⟩ := item_admitAll hresolved.wellFormed ha hlt hparent hext
  exact hadmission.consistentValues hnames hschema

end ItemTree
end Schemata
