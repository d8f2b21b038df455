import Schemata.Proofs.Fold
import Schemata.Resolution

/-! What of a tree the later passes leave as it was.

The skeleton of an item is what its place in the tree, its references and its
kind are told from: an item without its metadata, its arity and the marks that
passes put on it. Chains of references, the fundamental type behind an item and
the walk depend on the skeletons only. `Alike` trees have the same skeletons;
once names are bound and items are classified, all passes keep a tree alike. Most
keep arities as well: what they leave tallies with what was there (`TalliesWith`). -/
namespace Schemata

/-! ### Skeletons -/

/-- An item without its metadata, its arity and its marks. -/
def Item.skeleton (i : Item) : Item :=
  { i with
    referencedBy := [], metadata := ∅, arity := none, hasExplicitArity := false,
    refinement := none, isAugmenting := false, schema := ∅, isIgnored := false }

/-- How often an item occurs, and what it has said about that. -/
def Item.tally (i : Item) : Option Arity × Bool × Option Refinement :=
  (i.arity, i.hasExplicitArity, i.refinement)

theorem Item.of_tally {i i' : Item} (h : i'.tally = i.tally) : i'.arity = i.arity ∧
    i'.hasExplicitArity = i.hasExplicitArity ∧ i'.refinement = i.refinement := by
  obtain ⟨harity, h⟩ := Prod.mk.inj h
  obtain ⟨hexplicit, hrefinement⟩ := Prod.mk.inj h
  exact ⟨harity, hexplicit, hrefinement⟩

namespace ItemTree

variable {t t' : ItemTree} {id : ItemId}

/-- Every item without its metadata, its arity and its marks. -/
def skeleton (t : ItemTree) : ItemTree := ⟨t.items.map Item.skeleton⟩

theorem ext_item (hsize : t.size = t'.size) (h : ∀ id, t.item id = t'.item id) : t = t' := by
  obtain ⟨items⟩ := t
  obtain ⟨items'⟩ := t'
  have hitems : items = items' := by
    refine Array.ext hsize fun i hi hi' => ?_
    have hitem := h ⟨i⟩
    simpa [item, Array.getD_eq_getD_getElem?, hi, hi'] using hitem
  rw [hitems]

theorem item_of_size_le (h : t.size ≤ id.index) : t.item id = default := by
  unfold item
  rw [Array.getD_eq_getD_getElem?, Array.getElem?_eq_none h]
  rfl

theorem modify_of_size_le (h : t.size ≤ id.index) (f : Item → Item) : t.modify id f = t :=
  ext_item (size_modify t id f) fun x => by
    rw [item_modify, if_neg]
    rintro ⟨rfl, hlt⟩
    exact absurd hlt (Nat.not_lt.2 h)

@[simp] theorem size_skeleton (t : ItemTree) : t.skeleton.size = t.size := by
  simp [skeleton, size]

@[simp] theorem item_skeleton (t : ItemTree) (id : ItemId) :
    t.skeleton.item id = (t.item id).skeleton := by
  by_cases h : id.index < t.items.size
  · simp [skeleton, item, h]
  · rw [item_of_size_le (by simpa [skeleton, size] using h),
      item_of_size_le (show t.size ≤ id.index from Nat.le_of_not_lt h)]
    rfl

theorem skeleton_modify {f : Item → Item} (hf : ∀ i, (f i).skeleton = i.skeleton) :
    (t.modify id f).skeleton = t.skeleton := by
  refine ext_item (by simp) fun j => ?_
  rw [item_skeleton, item_skeleton, item_modify]
  split
  · exact hf _
  · rfl

/-! ### What depends on the skeletons only -/

theorem walk_skeleton (t : ItemTree) : t.skeleton.walk = t.walk := by
  have hfrom : ∀ bound id, t.skeleton.walkFrom bound id = t.walkFrom bound id := by
    intro bound
    induction bound with
    | zero => exact fun _ => rfl
    | succ bound ih =>
      intro id
      simp only [walkFrom]
      rw [item_skeleton, funext ih]
      rfl
  unfold walk
  rw [hfrom, size_skeleton]

theorem syntheticChild_skeleton (t : ItemTree) : t.skeleton.syntheticChild = t.syntheticChild := by
  funext id
  unfold syntheticChild
  simp only [item_skeleton]
  rfl

theorem qualifiedName_skeleton (t : ItemTree) : t.skeleton.qualifiedName = t.qualifiedName := by
  have hfrom : ∀ bound id?, t.skeleton.ancestryFrom bound id? = t.ancestryFrom bound id? := by
    intro bound
    induction bound with
    | zero => exact fun id? => rfl
    | succ bound ih =>
      intro id?
      cases id? with
      | none => rfl
      | some id =>
        simp only [ancestryFrom]
        rw [ih, item_skeleton]
        rfl
  funext id
  unfold qualifiedName ancestry
  rw [hfrom, size_skeleton]
  simp only [item_skeleton]
  rfl

theorem chainEnd_skeleton (t : ItemTree) : t.skeleton.chainEnd = t.chainEnd := by
  have hstep : t.skeleton.referenceStep = t.referenceStep := by
    funext id
    unfold referenceStep
    rw [item_skeleton]
    rfl
  funext id
  unfold chainEnd circular
  rw [hstep, size_skeleton, qualifiedName_skeleton, item_skeleton]
  rfl

theorem endKind_skeleton (t : ItemTree) : t.skeleton.endKind = t.endKind := by
  have hkind : t.skeleton.kindOf = t.kindOf := by
    funext target
    cases target with
    | item id =>
      show (t.skeleton.item id).kind = (t.item id).kind
      rw [item_skeleton]
      rfl
    | builtin type => cases type <;> rfl
  funext id
  unfold endKind
  rw [chainEnd_skeleton, hkind]

theorem leadsToFundamental_skeleton (t : ItemTree) :
    t.skeleton.leadsToFundamental = t.leadsToFundamental := by
  have hbarrier : t.skeleton.isBarrier = t.isBarrier := by
    funext id
    unfold isBarrier
    rw [item_skeleton]
    rfl
  have hreferred : t.skeleton.referred = t.referred := by
    funext id
    unfold referred
    rw [hbarrier, item_skeleton]
    rfl
  have hscalar : t.skeleton.isScalar = t.isScalar := by
    funext id
    unfold isScalar
    rw [item_skeleton]
    rfl
  have hnames : t.skeleton.namesFundamental = t.namesFundamental := by
    funext id
    unfold namesFundamental
    rw [hbarrier, item_skeleton]
    rfl
  funext id
  unfold leadsToFundamental
  rw [hreferred, hscalar, hnames, size_skeleton]

theorem simpleSources_skeleton (t : ItemTree) : t.skeleton.simpleSources = t.simpleSources := by
  funext id
  unfold simpleSources
  rw [leadsToFundamental_skeleton, item_skeleton]
  rfl

theorem fundamentalOf_skeleton (t : ItemTree) : t.skeleton.fundamentalOf = t.fundamentalOf := by
  have hstep : t.skeleton.fundamentalStep = t.fundamentalStep := by
    funext id
    unfold fundamentalStep
    rw [syntheticChild_skeleton, simpleSources_skeleton, item_skeleton]
    rfl
  funext id
  unfold fundamentalOf
  rw [hstep, size_skeleton]

/-! ### Alike trees -/

/-- The second tree has the skeletons of the first, and no more items are ignored than
extensions. -/
structure Alike (t t' : ItemTree) : Prop where
  skeleton : t'.skeleton = t.skeleton
  ignored : ∀ id, (t'.item id).isIgnored → (t.item id).isIgnored ∨ (t.item id).isExtension

namespace Alike

theorem refl (t : ItemTree) : t.Alike t := ⟨rfl, fun _ => .inl⟩

theorem size (h : t.Alike t') : t'.size = t.size := by
  rw [← size_skeleton t', h.skeleton, size_skeleton]

/-- Whatever can be told from the skeleton of an item stays the same. -/
theorem field {α : Type} (h : t.Alike t') (f : Item → α) (hf : ∀ i, f i.skeleton = f i)
    (id : ItemId) : f (t'.item id) = f (t.item id) := by
  rw [← hf (t'.item id), ← hf (t.item id), ← item_skeleton, ← item_skeleton, h.skeleton]

theorem trans {t'' : ItemTree} (h : t.Alike t') (h' : t'.Alike t'') : t.Alike t'' := by
  refine ⟨h'.skeleton.trans h.skeleton, fun id hid => ?_⟩
  rcases h'.ignored id hid with hi | he
  · exact h.ignored id hi
  · exact .inr (h.field Item.isExtension (fun _ => rfl) id ▸ he)

theorem of_modify {f : Item → Item} (hf : ∀ i, (f i).skeleton = i.skeleton)
    (hi : (f (t.item id)).isIgnored → (t.item id).isIgnored ∨ (t.item id).isExtension) :
    t.Alike (t.modify id f) := by
  refine ⟨skeleton_modify hf, fun j hj => ?_⟩
  rw [item_modify] at hj
  split at hj
  · next h =>
    rw [h.1] at hj ⊢
    exact hi hj
  · exact .inl hj

theorem walk (h : t.Alike t') : t'.walk = t.walk := by
  rw [← walk_skeleton t', h.skeleton, walk_skeleton]

theorem syntheticChild (h : t.Alike t') : t'.syntheticChild = t.syntheticChild := by
  rw [← syntheticChild_skeleton t', h.skeleton, syntheticChild_skeleton]

theorem chainEnd (h : t.Alike t') : t'.chainEnd = t.chainEnd := by
  rw [← chainEnd_skeleton t', h.skeleton, chainEnd_skeleton]

theorem qualifiedName (h : t.Alike t') : t'.qualifiedName = t.qualifiedName := by
  rw [← qualifiedName_skeleton t', h.skeleton, qualifiedName_skeleton]

theorem endKind (h : t.Alike t') : t'.endKind = t.endKind := by
  rw [← endKind_skeleton t', h.skeleton, endKind_skeleton]

theorem leadsToFundamental (h : t.Alike t') : t'.leadsToFundamental = t.leadsToFundamental := by
  rw [← leadsToFundamental_skeleton t', h.skeleton, leadsToFundamental_skeleton]

theorem simpleSources (h : t.Alike t') : t'.simpleSources = t.simpleSources := by
  rw [← simpleSources_skeleton t', h.skeleton, simpleSources_skeleton]

theorem fundamentalOf (h : t.Alike t') : t'.fundamentalOf = t.fundamentalOf := by
  rw [← fundamentalOf_skeleton t', h.skeleton, fundamentalOf_skeleton]

end Alike

/-! ### Trees that tally -/

/-- Alike trees whose items occur as often. -/
structure TalliesWith (t t' : ItemTree) : Prop extends t.Alike t' where
  tally : ∀ id, (t'.item id).tally = (t.item id).tally

namespace TalliesWith

theorem refl (t : ItemTree) : t.TalliesWith t := ⟨.refl t, fun _ => rfl⟩

section

variable (h : t.TalliesWith t') (id : ItemId)
include h

theorem arity : (t'.item id).arity = (t.item id).arity := (Item.of_tally (h.tally id)).1

theorem hasExplicitArity : (t'.item id).hasExplicitArity = (t.item id).hasExplicitArity :=
  (Item.of_tally (h.tally id)).2.1

theorem refinement : (t'.item id).refinement = (t.item id).refinement :=
  (Item.of_tally (h.tally id)).2.2

end

theorem trans {t'' : ItemTree} (h : t.TalliesWith t') (h' : t'.TalliesWith t'') :
    t.TalliesWith t'' :=
  ⟨h.toAlike.trans h'.toAlike, fun id => (h'.tally id).trans (h.tally id)⟩

theorem of_modify {f : Item → Item} (hf : ∀ i, (f i).skeleton = i.skeleton)
    (hi : (f (t.item id)).isIgnored → (t.item id).isIgnored ∨ (t.item id).isExtension)
    (ht : ∀ i, (f i).tally = i.tally) : t.TalliesWith (t.modify id f) := by
  refine ⟨.of_modify hf hi, fun j => ?_⟩
  rw [item_modify]
  split
  · exact ht _
  · rfl

end TalliesWith

end ItemTree
end Schemata
