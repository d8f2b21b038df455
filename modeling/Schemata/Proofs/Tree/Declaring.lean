import Schemata.Proofs.Tree.WellFormed

/-! Trees as a front end builds them.

An item is declared by one of the constructors and changed by the builders. What
is declared is fresh: nothing in it comes from a resolution. Fresh items pushed
under items that are there keep a tree well-formed. -/
namespace Schemata

/-! ### Items -/

namespace Item

/-- What can be declared. -/
inductive Declared : Item → Prop
  | object (name : Option String) : Declared (object name)
  | declaration (name : Option String) (target : String) : Declared (declaration name target)
  | variant (name : Option String) (alternatives : List Alternative) :
    Declared (variant name alternatives)
  | extension (name : String) (arguments : List Value) : Declared (extension name arguments)
  | withBase {i : Item} (h : i.Declared) (name : String) : Declared (i.withBase name)
  | withArity {i : Item} (h : i.Declared) (arity : Arity) : Declared (i.withArity arity)
  | withMetadata {i : Item} (h : i.Declared) (key : String) (value : Value) :
    Declared (i.withMetadata key value)
  | withRole {i : Item} (h : i.Declared) (role : Role) : Declared (i.withRole role)
  | external {i : Item} (h : i.Declared) : Declared i.external
  | placedAt {i : Item} (h : i.Declared) (location : Location) : Declared (i.placedAt location)

/-- Nothing in the item comes from a resolution. -/
structure Fresh (i : Item) : Prop where
  references : i.references = []
  alternatives : i.alternatives = []
  children : i.children = []
  kind : i.kind = none
  isSynthetic : i.isSynthetic = false
  isIgnored : i.isIgnored = false
  variants : ∀ as, RawReference.variant as ∈ i.rawReferences → i.form = .declaration

theorem Declared.fresh {i : Item} (h : i.Declared) : i.Fresh := by
  induction h with
  | object name | extension name arguments =>
    exact ⟨rfl, rfl, rfl, rfl, rfl, rfl, fun _ has => absurd has List.not_mem_nil⟩
  | declaration name target => exact ⟨rfl, rfl, rfl, rfl, rfl, rfl, fun _ _ => rfl⟩
  | variant name alternatives => exact ⟨rfl, rfl, rfl, rfl, rfl, rfl, fun _ _ => rfl⟩
  | withBase h name ih =>
    refine { ih with variants := fun as has => ih.variants as ?_ }
    rcases List.mem_append.1 has with has | has
    · exact has
    · cases List.mem_singleton.1 has
  | withArity h arity ih => exact { ih with }
  | withMetadata h key value ih => exact { ih with }
  | withRole h role ih => exact { ih with }
  | external h ih => exact { ih with }
  | placedAt h location ih =>
    refine { ih with variants := fun as has => ?_ }
    obtain ⟨raw, hraw, hmove⟩ := List.mem_map.1 has
    cases raw with
    | name name _ => cases hmove
    | variant as' => exact ih.variants as' hraw

theorem Fresh.regular {i : Item} (h : i.Fresh) (x : ItemId) (p : Option ItemId) :
    Regular { i with id := x, parent := p } where
  variants hv := by
    rcases hv with hv | ⟨as, hv⟩
    · exact absurd h.alternatives hv
    · exact h.variants as hv
  bound hk := by
    rw [show ({ i with id := x, parent := p } : Item).kind = none from h.kind] at hk
    cases hk
  suits k hk := by
    rw [show ({ i with id := x, parent := p } : Item).kind = none from h.kind] at hk
    cases hk
  synthetic hs := absurd (h.isSynthetic.symm.trans hs) (by simp)
  ignored hi := absurd (h.isIgnored.symm.trans hi) (by simp)

end Item

/-! ### Trees -/

namespace ItemTree

variable {t : ItemTree} {p : ItemId} {i : Item}

theorem wellFormed_ofSource (source : String) : (ofSource source).WellFormed := by
  have hitem : ∀ id, ((ofSource source).item id) = (Item.object none).placedAt ⟨source, 1, 1⟩ ∨
      (ofSource source).item id = default := fun id => by
    by_cases h : id = root
    · rw [h]
      exact .inl rfl
    · refine .inr (item_of_size_le (Nat.one_le_iff_ne_zero.2 fun he => h ?_))
      obtain ⟨k⟩ := id
      exact congrArg ItemId.mk he
  have hfresh : ((Item.object none).placedAt ⟨source, 1, 1⟩).Fresh :=
    ((Item.Declared.object none).placedAt _).fresh
  have hempty : ∀ id, ((ofSource source).item id).alternatives = [] ∧
      ((ofSource source).item id).children = [] ∧ ((ofSource source).item id).references = [] ∧
      ((ofSource source).item id).isSynthetic = false ∧
      ((ofSource source).item id).kind = none := fun id => by
    rcases hitem id with h | h <;> rw [h] <;> exact ⟨rfl, rfl, rfl, rfl, rfl⟩
  have hlisted : ∀ id, (ofSource source).listed id = [] := fun id => by
    unfold listed
    rw [(hempty id).1, (hempty id).2.1]
    rfl
  have honly : ∀ id : ItemId, id.index < (ofSource source).size → id = root := fun ⟨k⟩ hid =>
    congrArg ItemId.mk (Nat.lt_one_iff.1 hid)
  refine ⟨⟨Nat.one_pos, fun id hid => ?_, rfl, rfl,
      fun id hid hne => absurd (honly id hid) hne, fun q c hc => ?_, fun q => ?_⟩,
    ⟨fun id => ?_, fun q c hc => ?_, fun id x hx => ?_, fun c hc => ?_⟩, fun id hk => ?_⟩
  · rw [honly id hid]
    rfl
  · rw [hlisted] at hc
    cases hc
  · rw [hlisted]
    exact List.nodup_nil
  · rcases hitem id with h | h <;> rw [h]
    · exact hfresh.regular ⟨0⟩ none
    · exact Item.regular_default
  · rw [(hempty q).1] at hc
    cases hc
  · rw [(hempty id).2.2.1] at hx
    cases hx
  · rw [(hempty c).2.2.2.1] at hc
    cases hc
  · rw [(hempty id).2.2.2.2] at hk
    cases hk

section Push

variable (hp : p.index < t.size)
include hp

theorem item_push (j : ItemId) : (t.push p i).item j =
    if j = p then withChild t.nextId (t.item p)
    else if j = t.nextId then { i with id := t.nextId, parent := some p } else t.item j := by
  rw [push_eq]
  exact item_addUnder hp i withChild j

theorem item_push_nextId :
    (t.push p i).item t.nextId = { i with id := t.nextId, parent := some p } := by
  rw [item_push hp, if_neg (Ne.symm (ne_nextId hp)), if_pos rfl]

/-- Apart from the children of the parent, old items stay as they were. -/
theorem item_push_old {j : ItemId} (hj : j ≠ t.nextId) :
    (t.push p i).item j = { t.item j with children := ((t.push p i).item j).children } := by
  rw [item_push hp, if_neg hj]
  split
  · next hjp =>
    rw [hjp]
    rfl
  · rfl

theorem syntheticChild_push (hi : i.Fresh) (hr : t.Rooted) (q : ItemId) :
    (t.push p i).syntheticChild q = t.syntheticChild q := by
  have hsame : ∀ c ∈ (t.item q).children,
      ((t.push p i).item c).isSynthetic = (t.item c).isSynthetic := fun c hc => by
    rw [item_push_old hp (ne_nextId (hr.listed q c (List.mem_append_right _ hc)).1)]
  by_cases hq : q = p
  · have hnew : ((t.push p i).item t.nextId).isSynthetic = false := by
      rw [item_push_nextId hp]
      exact hi.isSynthetic
    have hchildren : ((t.push p i).item q).children = (t.item q).children ++ [t.nextId] := by
      rw [item_push hp, if_pos hq, hq]
      rfl
    unfold syntheticChild
    rw [hchildren, List.find?_append, List.find?_congr hsame, List.find?_cons, hnew]
    exact Option.or_none
  · refine syntheticChild_congr ?_ hsame
    rw [item_push hp, if_neg hq]
    split
    · next hqn =>
      have hnone : t.item t.nextId = default := item_of_size_le (Nat.le_refl t.size)
      rw [hqn, hnone]
      exact hi.children
    · rfl

theorem WellFormed.push (h : t.WellFormed) (hi : i.Fresh) : (t.push p i).WellFormed := by
  have hsize : (t.push p i).size = t.size + 1 := size_addUnder t p i withChild
  have hfresh := hi.regular t.nextId (some p)
  rw [← item_push_nextId hp] at hfresh
  have hnone : t.item t.nextId = default := item_of_size_le (Nat.le_refl t.size)
  -- what is new has neither alternatives nor references nor a kind
  have halternatives : ∀ j, ((t.push p i).item j).alternatives = (t.item j).alternatives := by
    intro j
    by_cases hj : j = t.nextId
    · rw [hj, item_push_nextId hp, hnone]
      exact hi.alternatives
    · rw [item_push_old hp hj]
  have hreferences : ∀ j, ((t.push p i).item j).references = (t.item j).references := by
    intro j
    by_cases hj : j = t.nextId
    · rw [hj, item_push_nextId hp, hnone]
      exact hi.references
    · rw [item_push_old hp hj]
  have hkind : ∀ j, ((t.push p i).item j).kind = (t.item j).kind := by
    intro j
    by_cases hj : j = t.nextId
    · rw [hj, item_push_nextId hp, hnone]
      exact hi.kind
    · rw [item_push_old hp hj]
  have hregular : ∀ j, ((t.push p i).item j).Regular := by
    intro j
    by_cases hj : j = t.nextId
    · rw [hj]
      exact hfresh
    · have hj' := h.regular.items j
      rw [item_push_old hp hj]
      exact ⟨hj'.variants, hj'.bound, fun k hk => by cases k <;> exact hj'.suits _ hk,
        hj'.synthetic, hj'.ignored⟩
  have hgrown : t.Grown (t.push p i) := by
    refine ⟨by omega, fun j hj => ?_, fun j hj => ?_, fun j hj => ?_, fun j hj => ?_,
      fun j hk => (hkind j).trans hk,
      fun q c hc => (syntheticChild_push hp hi h.rooted q).trans hc⟩ <;>
      rw [item_push_old hp (ne_nextId hj)]
  have hgrounded : ∀ x, t.Grounded x → (t.push p i).Grounded x := fun x hx =>
    hx.of_same (fun x k hk => (hkind x).trans hk) fun x hlt hb => by
      rw [item_push_old hp (ne_nextId hlt)]
      exact ⟨hb, rfl, rfl, rfl⟩
  refine ⟨h.rooted.addUnder hp lists_withChild hi.alternatives hi.children,
    h.regular.grown h.rooted hgrown hregular (fun q c hc => .inl (halternatives q ▸ hc))
      (fun j x hx => .inl (hreferences j ▸ hx)) fun c hc hs => ?_, fun j hk => ?_⟩
  · by_cases hcn : c = t.nextId
    · rw [hcn, item_push_nextId hp] at hs
      exact absurd (hi.isSynthetic.symm.trans hs) (by simp)
    · rw [item_push_old hp hcn, item_of_size_le hc] at hs
      cases hs
  · rw [hkind] at hk
    rw [syntheticChild_push hp hi h.rooted]
    unfold Item.itemReferences
    rw [hreferences]
    exact (h.grounded j hk).imp_right fun ⟨y, hy, hg⟩ => ⟨y, hy, hgrounded y hg⟩

/-- Only objects hold anything, if what is new is pushed under an object. -/
theorem OnlyObjectsHold.push (h : t.OnlyObjectsHold) (hi : i.Fresh)
    (hform : (t.item p).form = .object) : (t.push p i).OnlyObjectsHold := by
  intro id hid
  rw [item_push hp] at hid ⊢
  split at hid
  · next hidp =>
    rw [if_pos hidp]
    exact hform
  · next hidp =>
    rw [if_neg hidp]
    split at hid
    · exact absurd hi.children hid
    · next hidn =>
      rw [if_neg hidn]
      exact h id hid

end Push

/-- What declaring makes of the tree of an empty source text. -/
inductive Declared : ItemTree → Prop
  | source (source : String) : Declared (ofSource source)
  | push {t : ItemTree} (h : t.Declared) {p : ItemId} (hp : p.index < t.size) {i : Item}
    (hi : i.Declared) : Declared (t.push p i)

/-- What holds of declared items, whatever is declared under them, holds of all items of a tree. -/
theorem Declared.item {P : Item → Prop} (h : t.Declared)
    (hitem : ∀ (i : Item) (x : ItemId) (p : Option ItemId), i.Declared →
      P { i with id := x, parent := p })
    (hchild : ∀ i c, P i → P (withChild c i)) (x : ItemId) : P (t.item x) := by
  induction h generalizing x with
  | source source =>
    by_cases hx : x.index < (ofSource source).size
    · obtain ⟨k⟩ := x
      obtain rfl : k = 0 := Nat.lt_one_iff.1 hx
      exact hitem _ ⟨0⟩ none ((Item.Declared.object none).placedAt ⟨source, 1, 1⟩)
    · rw [item_of_size_le (Nat.le_of_not_lt hx)]
      exact hitem _ ⟨0⟩ none (.object none)
  | push _ hp hi ih =>
    rw [item_push hp]
    split
    · exact hchild _ _ (ih _)
    · split
      · exact hitem _ _ _ hi
      · exact ih x

/-- What has been declared only has no kind yet. -/
theorem Declared.kind (h : t.Declared) (x : ItemId) : (t.item x).kind = none :=
  h.item (P := fun i => i.kind = none) (fun _ _ _ hi => hi.fresh.kind) (fun _ _ hk => hk) x

/-- What has been declared only is bound to nothing yet. -/
theorem Declared.unbound (h : t.Declared) (x : ItemId) :
    (t.item x).references = [] ∧ (t.item x).alternatives = [] :=
  h.item (P := fun i => i.references = [] ∧ i.alternatives = [])
    (fun _ _ _ hi => ⟨hi.fresh.references, hi.fresh.alternatives⟩) (fun _ _ hu => hu) x

theorem onlyObjectsHold_ofSource (source : String) : (ofSource source).OnlyObjectsHold := by
  intro id hid
  by_cases hroot : id = root
  · rw [hroot]
    rfl
  · rw [item_of_size_le] at hid
    · exact absurd rfl hid
    · refine Nat.one_le_iff_ne_zero.2 fun he => hroot ?_
      obtain ⟨k⟩ := id
      exact congrArg ItemId.mk he

end ItemTree
end Schemata
