import Schemata.Proofs.Order.Numbering
import Schemata.Proofs.Tree.Arities
import Schemata.Proofs.Tree.Inheriting
import Schemata.Proofs.Tree.Verdicts

/-! Chains in trees that differ in the order of children.

Everything that is found by following references, or by going from an object to its
sources, is found for corresponding items in the same way: the order of children
decides nothing about it. -/
namespace Schemata

open Search

namespace ItemTree

variable {t u : ItemTree} {σ : Equiv.Perm ItemId} {x y : ItemId}

/-! ### Ends of chains -/

theorem kindOf_rename {target : Target} (h : t.Reordered σ u) :
    u.kindOf (target.rename σ) = t.kindOf target := by
  cases target with
  | item x => exact h.field Item.kind (fun _ => rfl) x
  | builtin type => cases type <;> rfl

namespace Reordered

variable (h : t.Reordered σ u)
include h

theorem referenceStep (x : ItemId) :
    u.referenceStep (σ x) = (t.referenceStep x).rename σ (Target.rename σ) := by
  unfold ItemTree.referenceStep
  rw [h.field Item.kind fun _ => rfl, (h.item x).target?]
  split
  · cases (t.item x).target? with
    | none => rfl
    | some target => cases target <;> rfl
  · rfl

theorem ends_rename {target : Target} (hends : Ends t.referenceStep x target) :
    Ends u.referenceStep (σ x) (target.rename σ) := hends.rename h.referenceStep

theorem endKind (x : ItemId) : (u.endKind (σ x)).toOption = (t.endKind x).toOption := by
  have hone : ∀ {t u : ItemTree} {σ : Equiv.Perm ItemId} (x : ItemId) (kind : Option Kind),
      t.Reordered σ u → t.endKind x = .ok kind → u.endKind (σ x) = .ok kind := by
    intro t u σ x kind h hkind
    unfold ItemTree.endKind at hkind ⊢
    obtain ⟨target, htarget, rfl⟩ := map_eq_ok hkind
    rw [chainEnd_eq_ok_iff.2 (h.ends_rename (chainEnd_eq_ok_iff.1 htarget))]
    exact congrArg Except.ok (kindOf_rename h)
  refine Option.ext fun kind => ?_
  rw [toOption_eq_some_iff, toOption_eq_some_iff]
  refine ⟨fun hkind => ?_, hone x kind h⟩
  have hback := hone (σ x) kind h.symm hkind
  rwa [σ.symm_apply_apply] at hback

theorem declaredArityStep (x : ItemId) :
    u.declaredArityStep (σ x) = (t.declaredArityStep x).rename σ id := by
  unfold ItemTree.declaredArityStep
  dsimp only
  rw [h.field Item.arity fun _ => rfl, h.field Item.form fun _ => rfl, (h.item x).alternatives,
    (h.item x).target?]
  simp only [List.map_eq_nil_iff]
  cases (t.item x).arity with
  | some arity => rfl
  | none =>
    dsimp only
    split
    · cases (t.item x).target? with
      | none => rfl
      | some target => cases target <;> rfl
    · rfl

theorem declaredArity (x : ItemId) :
    (u.declaredArity (σ x)).toOption = (t.declaredArity x).toOption := by
  refine Option.ext fun a => ?_
  rw [toOption_eq_some_iff, toOption_eq_some_iff, declaredArity_eq_ok_iff,
    declaredArity_eq_ok_iff]
  exact ends_rename_iff h.declaredArityStep

theorem arityStep (x : ItemId) : u.arityStep (σ x) = (t.arityStep x).rename σ id := by
  unfold ItemTree.arityStep
  dsimp only
  rw [h.field Item.arity fun _ => rfl, h.field Item.kind fun _ => rfl, (h.item x).target?]
  cases (t.item x).arity with
  | some arity => rfl
  | none =>
    cases (t.item x).kind with
    | none => rfl
    | some kind =>
      cases (t.item x).target? with
      | none => cases kind <;> rfl
      | some target => cases kind <;> cases target <;> rfl

/-! ### Paths -/

theorem isBarrier (x : ItemId) : u.isBarrier (σ x) = t.isBarrier x := by
  unfold ItemTree.isBarrier
  rw [h.field Item.isExtension fun _ => rfl, (h.item x).alternatives, List.isEmpty_map]

theorem referred (x : ItemId) : u.referred (σ x) = (t.referred x).map σ := by
  unfold ItemTree.referred
  rw [h.isBarrier, (h.item x).itemReferences]
  split <;> rfl

theorem namesFundamental (x : ItemId) : u.namesFundamental (σ x) = t.namesFundamental x := by
  unfold ItemTree.namesFundamental
  rw [h.isBarrier, (h.item x).references, List.any_map]
  congr 2
  funext target
  cases target <;> rfl

theorem isScalar (x : ItemId) : u.isScalar (σ x) = t.isScalar x := by
  unfold ItemTree.isScalar
  rw [h.field Item.kind fun _ => rfl]

theorem path (hxy : t.Path x y) : u.Path (σ x) (σ y) := by
  refine Relation.ReflTransGen.lift σ (fun a b hb => ?_) x y hxy
  show σ b ∈ u.referred (σ a)
  rw [h.referred]
  exact List.mem_map_of_mem hb

/-- There is a path to something in one tree if there is one in the other. -/
theorem exists_path_iff {P Q : ItemId → Prop} (hPQ : ∀ y, Q (σ y) ↔ P y) :
    (∃ y, u.Path (σ x) y ∧ Q y) ↔ ∃ y, t.Path x y ∧ P y := by
  constructor
  · rintro ⟨y, hxy, hy⟩
    obtain ⟨y, rfl⟩ := σ.surjective y
    have hback := h.symm.path hxy
    rw [σ.symm_apply_apply, σ.symm_apply_apply] at hback
    exact ⟨y, hback, (hPQ y).1 hy⟩
  · rintro ⟨y, hxy, hy⟩
    exact ⟨σ y, h.path hxy, (hPQ y).2 hy⟩

theorem leadsToScalar : u.LeadsToScalar (σ x) ↔ t.LeadsToScalar x := by
  refine h.exists_path_iff fun y => ?_
  unfold HasScalar
  rw [h.field Item.kind fun _ => rfl, h.namesFundamental]

/-! ### Sources -/

section WellFormed

variable (ht : t.WellFormed) (hu : u.WellFormed)
include ht hu

theorem leadsToFundamental (hx : x.index < t.size) :
    u.leadsToFundamental (σ x) = t.leadsToFundamental x := by
  rw [Bool.eq_iff_iff, hu.regular.leadsToFundamental_iff (h.lt hx),
    ht.regular.leadsToFundamental_iff hx]
  exact h.exists_path_iff fun y => by rw [h.isScalar, h.namesFundamental]

theorem simpleSources (x : ItemId) : u.simpleSources (σ x) = (t.simpleSources x).map σ := by
  unfold ItemTree.simpleSources
  rw [(h.item x).itemReferences, List.filter_map]
  refine congrArg (List.map σ) (List.filter_congr fun y hy => ?_)
  exact h.leadsToFundamental ht hu (ht.regular.references x y (mem_itemReferences.1 hy)).1

theorem syntheticChild (x : ItemId) : u.syntheticChild (σ x) = (t.syntheticChild x).map σ := by
  refine Option.ext fun y => ?_
  obtain ⟨y, rfl⟩ := σ.surjective y
  rw [hu.syntheticChild_eq_some_iff, h.mem_children, h.field Item.isSynthetic fun _ => rfl,
    ← ht.syntheticChild_eq_some_iff]
  simp

theorem fundamentalStep (x : ItemId) :
    u.fundamentalStep (σ x) = (t.fundamentalStep x).rename σ id := by
  unfold ItemTree.fundamentalStep
  rw [h.field Item.kind fun _ => rfl, (h.item x).target?, h.syntheticChild ht hu,
    h.simpleSources ht hu, List.head?_map, ← Option.map_or]
  cases (t.item x).kind with
  | none => rfl
  | some kind =>
    cases kind with
    | fundamental | reference =>
      cases (t.item x).target? with
      | none => rfl
      | some target => cases target <;> rfl
    | simple => cases (t.syntheticChild x).or (t.simpleSources x).head? <;> rfl
    | _ => rfl

theorem fundamentalOf (x : ItemId) : u.fundamentalOf (σ x) = t.fundamentalOf x := by
  refine Option.ext fun type => ?_
  rw [fundamentalOf_eq_some_iff, fundamentalOf_eq_some_iff]
  exact ends_rename_iff (h.fundamentalStep ht hu)

theorem source (x : ItemId) : u.source (σ x) = (t.source x).map σ := by
  unfold ItemTree.source simpleSource
  rw [h.field Item.kind fun _ => rfl, (h.item x).target?, h.syntheticChild ht hu,
    h.simpleSources ht hu]
  cases (t.item x).kind with
  | none => rfl
  | some kind =>
    cases kind with
    | simple =>
      cases t.syntheticChild x <;> rcases t.simpleSources x with _ | ⟨y, _ | _⟩ <;> rfl
    | reference =>
      cases (t.item x).target? with
      | none => rfl
      | some target => cases target <;> rfl
    | _ => rfl

end WellFormed

end Reordered

end ItemTree
end Schemata
