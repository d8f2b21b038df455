import Schemata.Proofs.OrderedMap
import Schemata.Proofs.Tree.Admitting
import Schemata.Proofs.Tree.Reachable
import Schemata.Proofs.Tree.Sweeps

/-! What an admission makes of the entries of every item.

An admission works on the metadata of one item after another and changes nothing
else that it goes by. So every item comes out with its own metadata typed, checked
and filled, whatever is done to the others before. -/
namespace Schemata

/-! ### One item -/

namespace Item

variable {i i' : Item} {options : Options} {name key : String} {a : Attribute}
  {entry : Entry}

/-- The steps of an admission: known entries stay, their values are typed, the checks pass, and
defaults fill in. -/
structure Admission (i known typed i' : Item) : Prop where
  required : ∀ a ∈ i.schema.values, a.required → i.metadata.contains a.name
  keeps : known = { i with metadata := i.metadata.filter fun key _ => i.schema.contains key }
  types : known.typeValues = .ok typed
  same : typed = { known with metadata := typed.metadata }
  checks : typed.checkValues = .ok ()
  fills : i' = typed.fillDefaults

theorem admission_of_admitMetadata (h : i.admitMetadata options name = .ok i') :
    ∃ known typed, Admission i known typed i' := by
  obtain ⟨_, hrequired, h⟩ := bind_eq_ok h
  obtain ⟨known, hknown, h⟩ := bind_eq_ok h
  obtain ⟨typed, htyped, h⟩ := bind_eq_ok h
  obtain ⟨_, hchecks, h⟩ := bind_eq_ok h
  cases h
  refine ⟨known, typed, fun a ha hr => ?_, ?_, htyped, ?_, hchecks, rfl⟩
  · have hone := forM_eq_ok hrequired a ha
    split at hone
    · cases hone
    · next hn =>
      rw [hr, Bool.true_and, Bool.not_eq_true', Bool.not_eq_false] at hn
      exact hn
  · unfold dropUnknown at hknown
    dsimp only at hknown
    split at hknown
    · cases hknown
    · cases hknown
      rfl
  · obtain ⟨metadata, _, hmetadata⟩ := bind_eq_ok htyped
    cases hmetadata
    rfl

namespace Admission

variable {known typed : Item} (h : Admission i known typed i')
include h

theorem schema_known : known.schema = i.schema := by rw [h.keeps]

theorem schema_typed : typed.schema = i.schema := by rw [h.same, h.keeps]

theorem schema : i'.schema = i.schema := by
  rw [h.fills]
  exact h.schema_typed

/-- What the schema knows becomes a value of its attribute's type. -/
theorem find?_typed (ha : i.schema.find? key = some a) :
    (i.metadata.find? key = none → typed.metadata.find? key = none) ∧
      ∀ entry, i.metadata.find? key = some entry → ∃ value,
        a.type.convert entry.value = .ok value ∧
          typed.metadata.find? key = some { entry with value } := by
  have hknown : known.metadata.find? key = i.metadata.find? key := by
    rw [h.keeps]
    exact (OrderedMap.find?_filter_key _ _ key).trans (if_pos (OrderedMap.contains_of_find? ha))
  obtain ⟨metadata, hmetadata, he⟩ := bind_eq_ok h.types
  cases he
  obtain ⟨hnone, hsome⟩ := OrderedMap.find?_traverse hmetadata key
  refine ⟨fun hn => hnone (hknown.trans hn), fun entry hentry => ?_⟩
  obtain ⟨entry', hstep, hfound⟩ := hsome entry (hknown.trans hentry)
  rw [h.schema_known, ha] at hstep
  dsimp only at hstep
  split at hstep
  · next value hvalue =>
    cases hstep
    exact ⟨value, hvalue, hfound⟩
  · cases hstep

/-- Defaults do not show where there is a value. -/
theorem find?_of_typed (ht : typed.metadata.find? key = some entry) :
    i'.metadata.find? key = some entry := by
  rw [h.fills]
  refine (OrderedMap.find?_insertAll _ _ key).trans ?_
  rw [List.find?_eq_none.2, ht]
  · rfl
  · rintro e he hkey
    obtain ⟨a, _, hdefault⟩ := List.mem_filterMap.1 (List.mem_reverse.1 he)
    split at hdefault
    · cases hdefault
    · next hopen =>
      obtain ⟨value, _, rfl⟩ := Option.map_eq_some_iff.1 hdefault
      obtain rfl : a.name = key := of_decide_eq_true hkey
      exact hopen (OrderedMap.contains_of_find? ht)

/-- An entry ends up as a value of its attribute's type. -/
theorem find?_metadata (ha : i.schema.find? key = some a)
    (he : i.metadata.find? key = some entry) : ∃ value,
      a.type.convert entry.value = .ok value ∧
        i'.metadata.find? key = some { entry with value } := by
  obtain ⟨value, hconvert, htyped⟩ := (h.find?_typed ha).2 entry he
  exact ⟨value, hconvert, h.find?_of_typed htyped⟩

end Admission

end Item

/-! ### All items -/

namespace ItemTree

variable {t t' t₁ t₂ : ItemTree} {plugin : Plugin} {options : Options} {id x : ItemId}

theorem admitEntries_local (h : t₁.admitEntries options id = .ok t₂) (hx : x ≠ id) :
    t₂.item x = t₁.item x := by
  unfold admitEntries at h
  dsimp only at h
  split at h
  · cases h
    rfl
  · cases hm : (t₁.item id).admitMetadata options (t₁.qualifiedName id) with
    | error failure =>
      rw [hm] at h
      cases h
    | ok i =>
      rw [hm] at h
      cases h
      exact item_modify_of_ne t₁ hx _

theorem admitExtension_local (h : t₁.admitExtension plugin options id = .ok t₂) (hx : x ≠ id) :
    t₂.item x = t₁.item x := by
  unfold admitExtension at h
  dsimp only at h
  split at h
  · cases h
    rfl
  · split at h
    · cases h
      exact item_modify_of_ne t₁ hx _
    · cases h

theorem admitItem_local (h : admitItem plugin options t₁ id = .ok t₂) (hx : x ≠ id) :
    t₂.item x = t₁.item x := by
  cases hn : (t₁.item id).isIgnored with
  | true =>
    unfold admitItem at h
    rw [if_pos hn] at h
    cases h
    rfl
  | false =>
    obtain ⟨t₃, hc⟩ := checked_of_admitItem h hn
    exact (admitExtension_local hc.extension hx).trans (admitEntries_local hc.entries hx)

/-- Every item but the root and the extensions has had its metadata admitted. -/
theorem item_admitAll (h : t.WellFormed) (hok : t.admitAll plugin options = .ok t')
    (hx : x.index < t.size) (hparent : (t.item x).parent.isSome)
    (hext : (t.item x).isExtension = false) :
    ∃ known typed, Item.Admission (t.item x) known typed (t'.item x) := by
  obtain ⟨_, _, hvisits⟩ := foldlM_visits (I := t.Retyped)
    (fun _ _ _ hstep _ hx => admitItem_local hstep hx)
    (fun _ _ _ _ hr hstep => hr.trans (retyped_admitItem hstep)) h.rooted.nodup_walk (.refl t) hok
  obtain ⟨t₁, t₂, hr, hitem, hstep, he⟩ := hvisits x (h.rooted.mem_walk_iff.2 hx)
  have hignored : (t₁.item x).isIgnored = false := by
    rw [hitem]
    refine Bool.eq_false_iff.2 fun hi => ?_
    rw [(h.regular.items x).ignored hi] at hext
    cases hext
  obtain ⟨t₃, hc⟩ := checked_of_admitItem hstep hignored
  have hx₁ : x.index < t₁.size := hr.size.symm ▸ hx
  have hentries := hc.entries
  unfold admitEntries at hentries
  dsimp only at hentries
  rw [hitem, hext, Bool.or_false,
    if_neg (by simpa [Option.isSome_iff_ne_none] using hparent)] at hentries
  cases hm : (t.item x).admitMetadata options (t₁.qualifiedName x) with
  | error failure =>
    rw [hm] at hentries
    cases hentries
  | ok i =>
    rw [hm] at hentries
    cases hentries
    have hi := eq_of_admitMetadata hm
    have hextension := hc.extension
    unfold admitExtension at hextension
    dsimp only at hextension
    have hnot : i.isExtension = false := by rw [hi]; exact hext
    rw [item_modify_self t₁ hx₁, hnot, if_pos (by simp)] at hextension
    cases hextension
    rw [he, item_modify_self t₁ hx₁]
    exact Item.admission_of_admitMetadata hm

end ItemTree
end Schemata
