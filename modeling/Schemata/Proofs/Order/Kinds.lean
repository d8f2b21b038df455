import Schemata.Proofs.Order.Chains

/-! Kinds in trees that differ in the order of children.

What an item turns out to be follows from what it says itself and from where its
references lead. So corresponding items are classified alike, and where one of them gets
a synthetic child its counterpart gets one, too. -/
namespace Schemata.ItemTree

open Search

variable {t u t' u' : ItemTree} {σ τ : Equiv.Perm ItemId} {x y c : ItemId} {i j : Item}

/-! ### Verdicts -/

namespace Reordered

variable (h : t.Reordered σ u)
include h

theorem ownFundamentals (x : ItemId) : u.ownFundamentals (σ x) = t.ownFundamentals x := by
  unfold ItemTree.ownFundamentals
  rw [(h.item x).references, List.filterMap_map]
  refine List.filterMap_congr fun target _ => ?_
  cases target <;> rfl

theorem linkVerdict (x y : ItemId) : u.linkVerdict (σ x) (σ y) = t.linkVerdict x y := by
  unfold ItemTree.linkVerdict
  rw [h.field Item.metadata fun _ => rfl]
  cases readRefinesArity (t.item x).metadata with
  | error e => rfl
  | ok refines =>
    refine congrArg (Option.map _) (?_ : (u.isList (σ x) (σ y) refines).toOption =
      (t.isList x y refines).toOption)
    unfold isList
    dsimp only
    rw [h.field Item.hasExplicitArity fun _ => rfl, h.field Item.arity fun _ => rfl]
    split
    · rw [toOption_map, toOption_map, h.declaredArity]
    · rfl

theorem declarationVerdict (x : ItemId) :
    u.declarationVerdict (σ x) = t.declarationVerdict x := by
  unfold ItemTree.declarationVerdict
  rw [(h.item x).alternatives, List.isEmpty_map, (h.item x).target?]
  split
  · rfl
  · cases (t.item x).target? with
    | none => rfl
    | some target =>
      cases target with
      | item y => exact h.linkVerdict x y
      | builtin type => cases type <;> rfl

theorem verdict (ht : t.Regular) (hu : u.Regular) (hk : ∀ x, (t.item x).kind = none)
    (hx : x.index < t.size) : u.verdict (σ x) = t.verdict x := by
  have hreaches : u.reachesFundamental (σ x) = t.reachesFundamental x := by
    rw [Bool.eq_iff_iff, ht.reachesFundamental_iff hx (hk x),
      hu.reachesFundamental_iff (h.lt hx) ((h.field Item.kind (fun _ => rfl) x).trans (hk x)),
      h.leadsToScalar]
  have hobject : u.objectVerdict (σ x) = t.objectVerdict x := by
    unfold objectVerdict
    rw [(h.item x).parent, Option.isNone_map, hreaches, h.ownFundamentals]
  unfold ItemTree.verdict
  rw [h.field Item.form fun _ => rfl, hobject, h.declarationVerdict]

end Reordered

/-- Corresponding items become corresponding ones. -/
theorem Verdict.matches_apply (v : Verdict) (h : i.Matches τ j) :
    (v.apply c i).Matches τ (v.apply (τ c) j) := by
  cases v with
  | plain k => exact h.map (withKind k) fun _ => rfl
  | list => exact h.map (fun i => withKind .list (withoutRefinesArity i)) fun _ => rfl
  | reference =>
    exact h.map (fun i => withKind .reference (withRefinement (withoutRefinesArity i))) fun _ => rfl
  | split type =>
    have hkept := h.map (fun i => withKind .simple
      { i with metadata := i.metadata.filter fun key _ => !type.hasAttribute key }) fun _ => rfl
    refine ⟨hkept.unlinked, hkept.parent, ?_, hkept.alternatives, h.children.cons (τ c)⟩
    show j.references.erase (.builtin (.fundamental type)) =
      (i.references.erase (.builtin (.fundamental type))).map (Target.rename τ)
    rw [h.references, List.map_erase (Target.rename_injective τ.injective)]
    rfl

/-- Unless it hands over its fundamental type, an item does not depend on a synthetic child. -/
theorem Verdict.apply_eq {v : Verdict} (hv : ∀ type, v ≠ .split type) (c d : ItemId) (i : Item) :
    v.apply c i = v.apply d i := by
  cases v with
  | split type => exact absurd rfl (hv type)
  | plain k => rfl
  | list => rfl
  | reference => rfl

/-! ### Classifying -/

/-- The items are the synthetic children of corresponding objects. -/
def SyntheticCounterparts (t' u' : ItemTree) (σ : Equiv.Perm ItemId) (n : Nat) (c d : ItemId) :
    Prop :=
  ∃ x, x.index < n ∧ t'.syntheticChild x = some c ∧ u'.syntheticChild (σ x) = some d

theorem WellFormed.parent_syntheticChild (h : t.WellFormed) (hc : t.syntheticChild x = some c) :
    (t.item c).parent = some x :=
  (h.rooted.listed x c (List.mem_append_right _ (mem_of_syntheticChild hc).1)).2

/-- What a classification adds is the synthetic child of an object that is split. -/
theorem ClassifiedFrom.syntheticChild_new (h : t.ClassifiedFrom t') (hle : t.size ≤ c.index)
    (hlt : c.index < t'.size) : ∃ x type, x.index < t.size ∧ t.verdict x = some (.split type) ∧
      t'.syntheticChild x = some c ∧
      t'.item c = { syntheticFor (t.item x) type with id := c, parent := some x } := by
  obtain ⟨x, type, hx, hv, hitem, hc⟩ := h.new c hle hlt
  refine ⟨x, type, hx, hv, h.refined.wellFormed.syntheticChild_eq_some_iff.2 ⟨?_, ?_⟩, hc⟩
  · rw [hitem]
    exact List.mem_cons_self
  · rw [hc]
    rfl

namespace Reordered

variable (h : t.Reordered σ u) (ht : t.WellFormed) (hu : u.WellFormed)
  (hk : ∀ x, (t.item x).kind = none) (hc : t.ClassifiedFrom t') (hc' : u.ClassifiedFrom u')
include h ht hu hk hc hc'

theorem exists_splitNumbering : u'.size = t'.size ∧ ∃ τ : Equiv.Perm ItemId,
    (∀ x, (τ x).index < t'.size ↔ x.index < t'.size) ∧ (∀ x, x.index < t.size → τ x = σ x) ∧
    ∀ c, t.size ≤ c.index → c.index < t'.size → SyntheticCounterparts t' u' σ t.size c (τ c) := by
  have hw := hc.refined.wellFormed
  have hw' := hc'.refined.wellFormed
  obtain ⟨hsize, τ, hlt, hold, hnew⟩ := exists_extension
    (R := SyntheticCounterparts t' u' σ t.size) h.lt_iff hc.refined.grown.size
    (h.size ▸ hc'.refined.grown.size)
    (fun a hk' ha => by
      obtain ⟨x, type, hx, hv, hxa, _⟩ := hc.syntheticChild_new hk' ha
      rw [← h.verdict ht.regular hu.regular hk hx] at hv
      obtain ⟨d, hle, hlt, _, _, hd⟩ := hc'.child (h.lt hx) hv
      exact ⟨d, h.size ▸ hle, hlt, x, hx, hxa, hd⟩)
    (fun b hk' hb => by
      obtain ⟨y, type, hy, hv, hyb, _⟩ := hc'.syntheticChild_new (h.size.symm ▸ hk') hb
      obtain ⟨x, hx, rfl⟩ := h.surjective hy
      rw [h.verdict ht.regular hu.regular hk hx] at hv
      obtain ⟨d, hle, hlt, _, _, hd⟩ := hc.child hx hv
      exact ⟨d, hle, hlt, x, hx, hd, hyb⟩)
    (fun a b c _ _ _ ⟨x, _, hxa, hxb⟩ ⟨y, _, hya, hyc⟩ => by
      obtain rfl := Option.some.inj
        ((hw.parent_syntheticChild hxa).symm.trans (hw.parent_syntheticChild hya))
      exact Option.some.inj (hxb.symm.trans hyc))
    (fun a b c _ _ _ ⟨x, _, hxa, hxc⟩ ⟨y, _, hyb, hyc⟩ => by
      obtain rfl := σ.injective (Option.some.inj
        ((hw'.parent_syntheticChild hxc).symm.trans (hw'.parent_syntheticChild hyc)))
      exact Option.some.inj (hxa.symm.trans hyb))
  exact ⟨hsize, τ, hlt, hold, fun c hle hlt => (hnew c hle hlt).2⟩

/-- Corresponding items are classified alike. -/
theorem classifiedFrom : ∃ τ : Equiv.Perm ItemId,
    (∀ x, x.index < t.size → τ x = σ x) ∧ t'.Reordered τ u' := by
  have hw := hc.refined.wellFormed
  obtain ⟨hsize, τ, hlt, hold, hnew⟩ := h.exists_splitNumbering ht hu hk hc hc'
  refine ⟨τ, hold, .of_lt hsize hlt fun x hx => ?_⟩
  by_cases hx' : x.index < t.size
  · rw [hold x hx']
    have hmatches := h.matches_of_agree ht hold hx'
    obtain ⟨v, c, hv, he, _⟩ := hc.old x hx'
    have hverdict := (h.verdict ht.regular hu.regular hk hx').trans hv
    by_cases hsplit : ∃ type, v = .split type
    · obtain ⟨type, rfl⟩ := hsplit
      obtain ⟨c, hle, hlt, he, _, hchild⟩ := hc.child hx' hv
      obtain ⟨d, _, _, he', _, hchild'⟩ := hc'.child (h.lt hx') hverdict
      obtain ⟨y, _, hyc, hyd⟩ := hnew c hle hlt
      obtain rfl := Option.some.inj
        ((hw.parent_syntheticChild hyc).symm.trans (hw.parent_syntheticChild hchild))
      obtain rfl := Option.some.inj (hchild'.symm.trans hyd)
      rw [he, he']
      exact Verdict.matches_apply _ hmatches
    · obtain ⟨v', c', hv', he', _⟩ := hc'.old (σ x) (h.lt hx')
      obtain rfl := Option.some.inj (hv'.symm.trans hverdict)
      rw [he, he', Verdict.apply_eq (fun type hs => hsplit ⟨type, hs⟩) c' (τ c)]
      exact Verdict.matches_apply _ hmatches
  · obtain ⟨y, hy, hyx, hyd⟩ := hnew x (Nat.le_of_not_lt hx') hx
    obtain ⟨p, type, hp, hv, hpx, hitem⟩ := hc.syntheticChild_new (Nat.le_of_not_lt hx') hx
    obtain rfl := Option.some.inj
      ((hw.parent_syntheticChild hyx).symm.trans (hw.parent_syntheticChild hpx))
    obtain ⟨d, _, _, _, hitem', hchild⟩ :=
      hc'.child (h.lt hy) ((h.verdict ht.regular hu.regular hk hy).trans hv)
    obtain rfl := Option.some.inj (hchild.symm.trans hyd)
    rw [hitem, hitem', h.field (syntheticFor · type) (fun _ => rfl) y, ← hold y hy]
    exact ⟨rfl, rfl, rfl, rfl, .rfl⟩

end Reordered

/-- Items are classified in the one tree if they are in the other. -/
theorem Reordered.classify (h : t.Reordered σ u) (ht : t.WellFormed) (hu : u.WellFormed)
    (hb : t.AllBound) (hk : ∀ x, (t.item x).kind = none) (hok : t.classify = .ok t') :
    ∃ u' τ, u.classify = .ok u' ∧ (∀ x, x.index < t.size → τ x = σ x) ∧ t'.Reordered τ u' := by
  have hall : ∀ {P : Item → Prop}, (∀ i : Item, P i.unlinked ↔ P i) → (∀ x, P (t.item x)) →
      ∀ x, P (u.item x) := fun {P} hP hx y => by
    obtain ⟨x, rfl⟩ := σ.surjective y
    rw [← hP, (h.item x).unlinked, hP]
    exact hx x
  have hk' := hall (P := fun i => i.kind = none) (fun _ => .rfl) hk
  have hb' := hall (P := fun i => i.rawReferences = []) (fun _ => .rfl) hb
  have hc := classifiedFrom_of_classify ht hb hk hok
  obtain ⟨u', hok'⟩ : ∃ u', u.classify = .ok u' := by
    refine classify_ok_of_verdicts hu hb' hk' fun y hy => ?_
    obtain ⟨x, hx, rfl⟩ := h.surjective hy
    obtain ⟨v, _, hv, _⟩ := hc.old x hx
    rw [h.verdict ht.regular hu.regular hk hx, hv]
    rfl
  obtain ⟨τ, hτ, h'⟩ :=
    h.classifiedFrom ht hu hk hc (classifiedFrom_of_classify hu hb' hk' hok')
  exact ⟨u', τ, hok', hτ, h'⟩

end Schemata.ItemTree
