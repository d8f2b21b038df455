import Schemata.Proofs.Tree.Constraints

/-! Metadata that an admission leaves as it is.

A value that has the type of its attribute is converted to itself, every default has the
type of its attribute and passes its check, and no check that comes with the language fails
for a default that comes in beside its value. So an item that has been admitted is `Ready`:
admitting its metadata once more changes nothing. -/
namespace Schemata

/-! ### Defaults -/

/-- A default of an attribute has its type, passes its check, and stands where no check reads it,
but for the least length, which is one. -/
def Attribute.DefaultFits (a : Attribute) : Prop :=
  ∀ v, a.defaultValue = some v → a.type.convert v = .ok v ∧
    (∀ check, a.check = some check → ∀ metadata, check.run v metadata = .ok ()) ∧
    (a.name = "min_length" ∧ v = .int 1 ∨ a.name ∉ ["min_length", "min", "values"])

theorem Attribute.defaultFits_of_none {a : Attribute} (h : a.defaultValue = none) :
    a.DefaultFits := fun v hv => by
  rw [h] at hv
  cases hv

theorem Fundamental.defaultFits (type : Fundamental) : ∀ a ∈ type.attributes, a.DefaultFits := by
  have hbool : ∀ (name : String) (b : Bool), name ∉ ["min_length", "min", "values"] →
      Attribute.DefaultFits { name, type := .bool, defaultValue := some (.bool b) } :=
    fun name b hname v hv => by
      cases hv
      exact ⟨rfl, nofun, .inr hname⟩
  cases type with
  | string =>
    intro a ha
    simp only [attributes, List.mem_cons, List.not_mem_nil, or_false] at ha
    rcases ha with rfl | rfl | rfl
    · intro v hv
      cases hv
      refine ⟨rfl, fun check hcheck metadata => ?_, .inl ⟨rfl, rfl⟩⟩
      cases hcheck
      rfl
    · exact Attribute.defaultFits_of_none rfl
    · exact Attribute.defaultFits_of_none rfl
  | filename =>
    intro a ha
    simp only [attributes, List.mem_cons, List.not_mem_nil, or_false] at ha
    rcases ha with rfl | rfl
    · exact hbool _ _ (by simp)
    · exact hbool _ _ (by simp)
  | directory =>
    intro a ha
    obtain rfl := List.mem_singleton.1 ha
    exact hbool _ _ (by simp)
  | enumeration | int | number =>
    intro a ha
    simp only [attributes, List.mem_cons, List.not_mem_nil, or_false] at ha
    rcases ha with rfl | rfl | rfl <;> exact Attribute.defaultFits_of_none rfl
  | _ => exact fun _ ha => absurd ha List.not_mem_nil

theorem defaultFits_kindAttributes (kind : Kind) (type : Option Fundamental) :
    ∀ a ∈ kind.attributes type, a.DefaultFits := by
  have hconstraints : ∀ a ∈ (type.map Fundamental.attributes).getD [], a.DefaultFits := by
    cases type with
    | none => exact fun _ ha => absurd ha List.not_mem_nil
    | some type => exact type.defaultFits
  cases kind with
  | fundamental => exact hconstraints
  | compound =>
    intro a ha v hv
    obtain rfl := List.mem_singleton.1 ha
    cases hv
    exact ⟨rfl, nofun, .inr (by simp)⟩
  | simple =>
    intro a ha
    rcases List.mem_cons.1 ha with rfl | ha
    · intro v hv
      cases hv
      refine ⟨rfl, fun check hcheck metadata => ?_, .inr (by simp [Key.fundamentalName])⟩
      cases hcheck
      have hidentifier : Text.isIdentifier Key.defaultFundamentalName.toList = true := by
        decide +kernel
      unfold ValueCheck.run
      dsimp only [Value.asText?, Option.getD_some]
      rw [if_pos hidentifier]
    · exact hconstraints a ha
  | _ => exact fun _ ha => absurd ha List.not_mem_nil

theorem defaultFits_arityAttributes (arity : Arity) :
    ∀ a ∈ ItemTree.arityAttributes arity, a.DefaultFits := by
  unfold ItemTree.arityAttributes
  split
  · intro a ha
    simp only [collectionAttributes, List.mem_cons, List.not_mem_nil, or_false] at ha
    rcases ha with rfl | rfl | rfl | rfl
    · intro v hv
      cases hv
      refine ⟨rfl, fun check hcheck => ?_, .inr (by simp)⟩
      cases hcheck
    all_goals exact Attribute.defaultFits_of_none rfl
  · split
    · intro a ha
      obtain rfl := List.mem_singleton.1 ha
      exact Attribute.defaultFits_of_none rfl
    · exact fun _ ha => absurd ha List.not_mem_nil

/-! ### Checks beside defaults -/

/-- The check comes with the language. -/
def ValueCheck.isBuiltIn : ValueCheck → Bool
  | custom _ => false
  | _ => true

/-- The attribute has no check but one that comes with the language. -/
def Attribute.IsHookFree (a : Attribute) : Prop := ∀ check ∈ a.check, check.isBuiltIn

theorem isHookFree_universalAttributes : ∀ a ∈ universalAttributes, a.IsHookFree := by
  unfold Attribute.IsHookFree
  decide

theorem Fundamental.isHookFree (type : Fundamental) : ∀ a ∈ type.attributes, a.IsHookFree := by
  unfold Attribute.IsHookFree
  cases type <;> decide

theorem isHookFree_kindAttributes (kind : Kind) (type : Option Fundamental) :
    ∀ a ∈ kind.attributes type, a.IsHookFree := by
  have hconstraints : ∀ a ∈ (type.map Fundamental.attributes).getD [], a.IsHookFree := by
    cases type with
    | none => exact fun _ ha => absurd ha List.not_mem_nil
    | some type => exact type.isHookFree
  cases kind with
  | fundamental => exact hconstraints
  | compound =>
    intro a ha
    obtain rfl := List.mem_singleton.1 ha
    exact nofun
  | simple =>
    intro a ha
    rcases List.mem_cons.1 ha with rfl | ha
    · rintro _ ⟨⟩
      rfl
    · exact hconstraints a ha
  | _ => exact fun _ ha => absurd ha List.not_mem_nil

theorem isHookFree_arityAttributes (arity : Arity) :
    ∀ a ∈ ItemTree.arityAttributes arity, a.IsHookFree := by
  unfold ItemTree.arityAttributes Attribute.IsHookFree
  split
  · decide
  · split
    · decide
    · exact fun _ ha => absurd ha List.not_mem_nil

/-- Nothing that a check reads changes, but for a least length of one where there was none. -/
structure Metadata.SameBounds (m m' : Metadata) : Prop where
  length : m'.value? "min_length" = m.value? "min_length" ∨
    m.value? "min_length" = none ∧ m'.value? "min_length" = some (.int 1)
  least : m'.value? "min" = m.value? "min"
  values : m'.value? "values" = m.value? "values"

/-- A greatest length is positive, so that it is not below the least length by default. -/
theorem ValueCheck.run_of_sameBounds {check : ValueCheck} {v : Value} {m m' : Metadata}
    (hbuiltIn : check.isBuiltIn) (hm : m.SameBounds m') (h : check.run v m = .ok ()) :
    check.run v m' = .ok () := by
  cases check with
  | lengthOrder =>
    unfold run at h ⊢
    dsimp only at h ⊢
    cases hv : v.asInt? with
    | none => rfl
    | some greatest =>
      rw [hv] at h
      dsimp only at h ⊢
      split at h
      · cases h
      · next hpositive =>
        rw [if_neg hpositive]
        rcases hm.length with hsame | ⟨_, hone⟩
        · rw [hsame]
          exact h
        · rw [hone]
          exact if_neg hpositive
  | boundOrder =>
    unfold run at h ⊢
    rw [hm.least]
    exact h
  | friendlyCount =>
    unfold run at h ⊢
    rw [hm.values]
    exact h
  | nonNegative | distinctValues | identifier => exact h
  | custom check => cases hbuiltIn

/-! ### Admitted items -/

/-- The schema lists attributes under their names, their defaults fit, and none of them has a check
that does not come with the language. -/
structure Schema.Fits (s : Schema) : Prop where
  named : ∀ key a, s.find? key = some a → a.name = key
  defaults : ∀ key a, s.find? key = some a → a.DefaultFits
  hookFree : ∀ key a, s.find? key = some a → a.IsHookFree

theorem Schema.fits_ofAttributes {attributes : List Attribute}
    (h : ∀ a ∈ attributes, a.DefaultFits ∧ a.IsHookFree) :
    (Schema.ofAttributes attributes).Fits where
  named _ _ ha := (mem_of_find? ha).2
  defaults _ a ha := (h a (mem_of_find? ha).1).1
  hookFree _ a ha := (h a (mem_of_find? ha).1).2

theorem Schema.Fits.found {s : Schema} (h : s.Fits) :
    ∀ a ∈ s.values, s.find? a.name = some a := fun a ha => by
  obtain ⟨key, hkey⟩ := (OrderedMap.mem_values_iff _ _).1 ha
  rwa [h.named key a hkey]

namespace Item

variable {i i' known typed : Item} {key : String} {a : Attribute} {entry : Entry}

/-- All that an admission of the item's metadata asks for is there already. -/
structure Ready (i : Item) : Prop where
  required : ∀ a ∈ i.schema.values, a.required → i.metadata.contains a.name
  known : ∀ key entry, i.metadata.find? key = some entry → i.schema.contains key
  typed : ∀ key entry a, i.metadata.find? key = some entry → i.schema.find? key = some a →
    a.type.convert entry.value = .ok entry.value
  checked : ∀ key entry a check, i.metadata.find? key = some entry → i.schema.find? key = some a →
    a.check = some check → check.run entry.value i.metadata = .ok ()
  filled : ∀ a ∈ i.schema.values, ∀ v, a.defaultValue = some v → i.metadata.contains a.name

/-- What is ready is admitted as it is. -/
theorem Ready.admitMetadata (h : i.Ready) (options : Options) (name : String) :
    i.admitMetadata options name = .ok i := by
  have hrequired : i.checkRequired name = .ok () := forM_ok fun a ha => by
    cases hr : a.required with
    | false => rfl
    | true => rw [h.required a ha hr]; rfl
  have hunknown : (i.metadata.filter fun key _ => !i.schema.contains key) = ∅ :=
    OrderedMap.filter_eq_empty fun key entry he => by rw [h.known key entry he]; rfl
  have hknown : i.dropUnknown options name = .ok i := by
    unfold dropUnknown
    rw [hunknown, OrderedMap.filter_eq_self h.known]
    cases options.filterAttributes <;> rfl
  have htyped : i.typeValues = .ok i := by
    unfold typeValues
    rw [OrderedMap.traverse_eq_self fun key entry he => ?_]
    · rfl
    · obtain ⟨a, ha⟩ := Option.isSome_iff_exists.1 (h.known key entry he)
      rw [ha]
      dsimp only
      rw [h.typed key entry a he ha]
  have hchecked : i.checkValues = .ok () := forM_ok fun e he => by
    have hfound := (OrderedMap.find?_eq_some_iff i.metadata e.1 e.2).2 he
    obtain ⟨a, ha⟩ := Option.isSome_iff_exists.1 (h.known e.1 e.2 hfound)
    rw [ha, Option.bind_some]
    split
    · rfl
    · next check hcheck => rw [h.checked e.1 e.2 a check hfound ha hcheck]
  have hfilled : i.fillDefaults = i := by
    have hnone : i.openDefaults = [] := List.filterMap_eq_nil_iff.2 fun a ha => by
      split
      · rfl
      · next hopen =>
        cases hv : a.defaultValue with
        | none => rfl
        | some v => exact absurd (h.filled a ha v hv) hopen
    unfold fillDefaults
    rw [hnone]
    rfl
  unfold Item.admitMetadata
  rw [hrequired, hknown]
  show (i.typeValues >>= _) = _
  rw [htyped]
  show (i.checkValues >>= fun _ => Except.ok i.fillDefaults) = _
  rw [hchecked, hfilled]
  rfl

namespace Admission

variable (h : Admission i known typed i')
include h

/-- Only what the schema knows is typed, and as values of its attribute's type. -/
theorem typed_entry (he : typed.metadata.find? key = some entry) : ∃ a,
    i.schema.find? key = some a ∧ a.type.convert entry.value = .ok entry.value := by
  have hcontains : i.schema.contains key := by
    by_contra hn
    have hknown : known.metadata.find? key = none := by
      rw [h.keeps]
      exact (OrderedMap.find?_filter_key _ _ key).trans (if_neg hn)
    obtain ⟨metadata, hmetadata, htyped⟩ := bind_eq_ok h.types
    cases htyped
    rw [(OrderedMap.find?_traverse hmetadata key).1 hknown] at he
    cases he
  obtain ⟨a, ha⟩ := Option.isSome_iff_exists.1 hcontains
  obtain ⟨hnone, hsome⟩ := h.find?_typed ha
  cases hi : i.metadata.find? key with
  | none =>
    rw [hnone hi] at he
    cases he
  | some written =>
    obtain ⟨value, hconvert, hfound⟩ := hsome written hi
    rw [hfound] at he
    cases he
    exact ⟨a, ha, AttributeType.convert_convert hconvert⟩

/-- Where there is no entry, a default comes in. -/
theorem contains_default {v : Value} (ha : i.schema.find? key = some a) (hname : a.name = key)
    (hv : a.defaultValue = some v) : i'.metadata.contains key := by
  cases ht : typed.metadata.find? key with
  | some e => exact OrderedMap.contains_of_find? (h.find?_of_typed ht)
  | none =>
    obtain rfl := hname
    have hmem : (a.name, (⟨v, .default, typed.location⟩ : Entry)) ∈ typed.openDefaults := by
      refine List.mem_filterMap.2 ⟨a, ?_, ?_⟩
      · rw [h.schema_typed]
        exact OrderedMap.mem_values_of_find? ha
      · rw [if_neg (by simp [OrderedMap.contains, ht]), hv]
        rfl
    rw [h.fills]
    refine Option.isSome_iff_ne_none.2 fun hnone => ?_
    have hfind := (OrderedMap.find?_insertAll typed.metadata typed.openDefaults a.name).symm.trans
      hnone
    rw [Option.or_eq_none_iff, Option.map_eq_none_iff, List.find?_eq_none] at hfind
    exact hfind.1 _ (List.mem_reverse.2 hmem) (by simp)

variable (hs : i.schema.Fits)
include hs

/-- Defaults change nothing that a check reads, but for the least length. -/
theorem sameBounds : Metadata.SameBounds typed.metadata i'.metadata := by
  have hcases : ∀ key, key ∈ ["min_length", "min", "values"] →
      Metadata.value? i'.metadata key = Metadata.value? typed.metadata key ∨
        key = "min_length" ∧ Metadata.value? typed.metadata key = none ∧
          Metadata.value? i'.metadata key = some (.int 1) := fun key hkey => by
    unfold Metadata.value?
    cases hi : i'.metadata.find? key with
    | none =>
      cases ht : typed.metadata.find? key with
      | none => exact .inl rfl
      | some entry =>
        rw [h.find?_of_typed ht] at hi
        cases hi
    | some entry =>
      rcases h.entry_cases hs.found hi with ht | ⟨ht, a, ha, hdefault⟩
      · rw [ht]
        exact .inl rfl
      · rw [ht]
        have hname := hs.named key a ha
        rcases (hs.defaults key a ha _ hdefault).2.2 with ⟨hlength, hone⟩ | hother
        · exact .inr ⟨hname.symm.trans hlength, rfl, congrArg some hone⟩
        · exact absurd (hname ▸ hkey) hother
  refine ⟨?_, ?_, ?_⟩
  · exact (hcases "min_length" (by simp)).imp_right fun hone => hone.2
  · exact (hcases "min" (by simp)).resolve_right fun hone => absurd hone.1 (by simp)
  · exact (hcases "values" (by simp)).resolve_right fun hone => absurd hone.1 (by simp)

/-- An admission leaves an item for which there is nothing more to do. -/
theorem ready : i'.Ready := by
  have hfound : ∀ {a : Attribute}, a ∈ i'.schema.values → i.schema.find? a.name = some a :=
    fun {a} ha => hs.found a (h.schema ▸ ha)
  refine ⟨fun a ha hr => ?_, fun key entry he => ?_, fun key entry a he ha => ?_,
    fun key entry a check he ha hcheck => ?_, fun a ha v hv => ?_⟩
  · obtain ⟨v, hv⟩ := h.exists_of_required (hfound ha) rfl hr
    obtain ⟨entry, he, _⟩ := Option.map_eq_some_iff.1 hv
    exact OrderedMap.contains_of_find? he
  · rw [h.schema]
    rcases h.entry_cases hs.found he with ht | ⟨_, a, ha, _⟩
    · obtain ⟨a, ha, _⟩ := h.typed_entry ht
      exact OrderedMap.contains_of_find? ha
    · exact OrderedMap.contains_of_find? ha
  · rw [h.schema] at ha
    rcases h.entry_cases hs.found he with ht | ⟨_, b, hb, hdefault⟩
    · obtain ⟨b, hb, hconvert⟩ := h.typed_entry ht
      obtain rfl := Option.some.inj (ha.symm.trans hb)
      exact hconvert
    · obtain rfl := Option.some.inj (ha.symm.trans hb)
      exact (hs.defaults key a ha _ hdefault).1
  · rw [h.schema] at ha
    rcases h.entry_cases hs.found he with ht | ⟨_, b, hb, hdefault⟩
    · exact ValueCheck.run_of_sameBounds (hs.hookFree key a ha check hcheck) (h.sameBounds hs)
        (h.passes ha hcheck (congrArg (Option.map Entry.value) ht))
    · obtain rfl := Option.some.inj (ha.symm.trans hb)
      exact (hs.defaults key a ha _ hdefault).2.1 check hcheck _
  · exact h.contains_default (hfound ha) rfl hv

end Admission
end Item
end Schemata
