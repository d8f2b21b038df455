import Schemata.Proofs.Search
import Schemata.Proofs.Tree.Reachable

/-! Properties that all trees have that declaring leads to, however far they are on their way.

Declaring an item, binding the names of one, classifying one, settling the arity of
one and passes that change nothing of the kind are all that happens to such a tree.
What each of these keeps, a resolution keeps too, whether it comes to its end or not
(`ArityInvariant.resolve`). A property that does not look at arities need not care
what settles them: all that is left to keep is whatever leaves the tree alike. Such
an `Invariant` holds of every reachable tree. -/
namespace Schemata.ItemTree

open Search

variable {t t' t'' : ItemTree} {I : ItemTree → Prop} {x : ItemId} {a : Arity}

/-- Everything is classified. -/
def Classified (t : ItemTree) : Prop := ∀ x, x.index < t.size → ∃ k, (t.item x).kind = some k

theorem Classified.alike (h : t.Classified) (ha : t.Alike t') : t'.Classified := fun x hx => by
  rw [ha.field Item.kind fun _ => rfl]
  exact h x (ha.size ▸ hx)

/-! ### Settling an arity -/

theorem arityStep_of_known (ha : (t.item x).arity = some a) : t.arityStep x = .halt a := by
  unfold arityStep
  dsimp only
  rw [ha]

/-- The tree is alike, and all chains of arities come to what they came to. -/
structure SettlesAlike (t t' : ItemTree) : Prop extends t.Alike t' where
  ends : ∀ x a, Ends t'.arityStep x a ↔ Ends t.arityStep x a

theorem SettlesAlike.refl (t : ItemTree) : t.SettlesAlike t := ⟨.refl t, fun _ _ => .rfl⟩

theorem SettlesAlike.trans (h : t.SettlesAlike t') (h' : t'.SettlesAlike t'') :
    t.SettlesAlike t'' :=
  ⟨h.toAlike.trans h'.toAlike, fun x a => (h'.ends x a).trans (h.ends x a)⟩

/-- An item that is settled shortens the chains that it is on. -/
theorem settlesAlike_modify (hend : Ends t.arityStep x a) :
    t.SettlesAlike (t.modify x (settledAt a)) := by
  by_cases hx : x.index < t.size
  · refine ⟨.of_modify (fun _ => rfl) .inl,
      Ends.shortcut (fun y hy => ?_) (arityStep_of_known ?_) hend⟩
    · unfold arityStep
      rw [item_modify_of_ne t hy]
    · rw [item_modify_self t hx]
      rfl
  · rw [modify_of_size_le (Nat.le_of_not_lt hx)]
    exact .refl t

/-- What is kept when an item gets the arity at the end of its chain is kept when several do. -/
theorem settle_keeps {ids : List ItemId} (hends : ∀ x ∈ ids, Ends t.arityStep x a) (h : I t)
    (hstep : ∀ t' x, t.SettlesAlike t' → x.index < t'.size → Ends t'.arityStep x a → I t' →
      I (t'.modify x (settledAt a))) : t.SettlesAlike (t.settle a ids) ∧ I (t.settle a ids) := by
  refine List.foldrRecOn (motive := fun t' => t.SettlesAlike t' ∧ I t') ids _ ⟨.refl t, h⟩
    fun t' ⟨hs, hI⟩ x hx => ?_
  have hend := (hs.ends x a).2 (hends x hx)
  refine ⟨hs.trans (settlesAlike_modify hend), ?_⟩
  by_cases hlt : x.index < t'.size
  · exact hstep t' x hs hlt hend hI
  · rwa [modify_of_size_le (Nat.le_of_not_lt hlt)]

/-! ### What keeps a property -/

/-- A property of the tree of an empty source text that is kept by all that happens to trees. The
arity that an item is given is the one at the end of its chain. -/
structure ArityInvariant (I : ItemTree → Prop) : Prop where
  source : ∀ source, I (ofSource source)
  push : ∀ {t : ItemTree} {p : ItemId} {i : Item}, t.WellFormed → p.index < t.size → i.Declared →
    I t → I (t.push p i)
  binding : ∀ {t t' : ItemTree} {id : ItemId}, t.WellFormed → (t.item id).rawReferences ≠ [] →
    Binding t id t' → I t → I t'
  classifies : ∀ {t t' : ItemTree} {id : ItemId}, t.WellFormed → t.AllBound → id.index < t.size →
    t.Classifies id t' → I t → I t'
  settled : ∀ {t : ItemTree} {id : ItemId} {a : Arity}, t.WellFormed → t.Classified →
    id.index < t.size → Ends t.arityStep id a → I t → I (t.modify id (settledAt a))
  tallies : ∀ {t t' : ItemTree}, t.TalliesWith t' → I t → I t'

/-- Such a property that is also kept by whatever leaves the tree alike. -/
structure Invariant (I : ItemTree → Prop) : Prop where
  source : ∀ source, I (ofSource source)
  push : ∀ {t : ItemTree} {p : ItemId} {i : Item}, t.WellFormed → p.index < t.size → i.Declared →
    I t → I (t.push p i)
  binding : ∀ {t t' : ItemTree} {id : ItemId}, t.WellFormed → (t.item id).rawReferences ≠ [] →
    Binding t id t' → I t → I t'
  classifies : ∀ {t t' : ItemTree} {id : ItemId}, t.WellFormed → t.AllBound → id.index < t.size →
    t.Classifies id t' → I t → I t'
  alike : ∀ {t t' : ItemTree}, t.Alike t' → I t → I t'

namespace ArityInvariant

variable (hI : ArityInvariant I)
include hI

theorem bindItem (ht : t.WellFormed) {id : ItemId} (hid : id.index < t.size) (h : I t) :
    I (leftBy (t.bindItem id)) := by
  rcases bindItem_cases ht hid with he | ⟨hraw, hb⟩
  · rw [he]
    exact h
  · exact hI.binding ht hraw hb h

theorem bindNames (ht : t.WellFormed) (h : I t) : I (leftBy t.bindNames) :=
  (forEach_keeps (I := fun t' => t.Refined t' ∧ I t') ⟨.refl ht, h⟩
    fun _ _ hx ⟨hr, hs⟩ =>
      have hlt := Nat.lt_of_lt_of_le (ht.rooted.mem_walk_iff.1 hx) hr.grown.size
      ⟨hr.trans (refined_bindItem hr.wellFormed hlt), hI.bindItem hr.wellFormed hlt hs⟩).2

theorem classify (ht : t.WellFormed) (hb : t.AllBound) (h : I t) : I (leftBy t.classify) := by
  refine (forEach_keeps (I := fun t' => t.Refined t' ∧ I t') ⟨.refl ht, h⟩
    fun t' x hx ⟨hr, hs⟩ => ?_).2
  have hlt := Nat.lt_of_lt_of_le (ht.rooted.mem_walk_iff.1 hx) hr.grown.size
  have hb' : t'.AllBound := fun y => hr.bound y (hb y)
  refine ⟨hr.trans (refined_classifyItem hr.wellFormed hb' hlt), ?_⟩
  obtain ⟨hok, herror⟩ := classification_classifyItem t' x
  cases hc : t'.classifyItem x with
  | ok t'' => exact hI.classifies hr.wellFormed hb' hlt (hok t'' hc) hs
  | error e => exact hI.tallies (herror e hc) hs

theorem settleArity (ht : t.WellFormed) (hall : t.Classified) (id : ItemId) (h : I t) :
    I (leftBy (t.settleArity id)) := by
  unfold ItemTree.settleArity
  cases hchase : chase t.arityStep (t.size + 1) id with
  | looped node => exact h
  | ended a =>
    exact (settle_keeps (fun _ => (chaseFrom_sound hchase).of_mem_trail) h
      fun t' x hs hx hend h' =>
        hI.settled (ht.alike hs.toAlike) (hall.alike hs.toAlike) hx hend h').2

theorem settleArities (ht : t.WellFormed) (hall : t.Classified) (h : I t) :
    I (leftBy t.settleArities) :=
  (forEach_keeps (I := fun t' => t.Alike t' ∧ I t') ⟨.refl t, h⟩
    fun t' id _ ⟨ha, hs⟩ => ⟨ha.trans (alike_settleArity t' id),
      hI.settleArity (ht.alike ha) (hall.alike ha) id hs⟩).2

theorem resolve (ht : t.WellFormed) (h : I t) (plugin : Plugin) (options : Options) :
    I (leftBy (t.resolve plugin options)) := by
  unfold ItemTree.resolve
  refine leftBy_bind (hI.bindNames ht h) fun t₁ h₁ hs₁ => ?_
  have hr₁ : t.Refined t₁ := by simpa [h₁, leftBy] using refined_bindNames ht
  have hb : t₁.AllBound := rawReferences_bindNames ht h₁
  refine leftBy_bind (hI.classify hr₁.wellFormed hb hs₁) fun t₂ h₂ hs₂ => ?_
  have hr₂ : t₁.Refined t₂ := by simpa [h₂, leftBy] using refined_classify hr₁.wellFormed hb
  have hall : t₂.Classified := fun x hx =>
    Option.isSome_iff_exists.1 (kind_classify hr₁.wellFormed hb h₂ hx)
  refine leftBy_bind (hI.settleArities hr₂.wellFormed hall hs₂) fun t₃ _ hs₃ => ?_
  refine leftBy_bind (hI.tallies (talliesWith_describe t₃ plugin options.config) hs₃)
    fun t₄ _ hs₄ => ?_
  exact hI.tallies (talliesWith_markAliases t₄) hs₄

end ArityInvariant

namespace Invariant

variable (hI : Invariant I)
include hI

/-- Settling an arity leaves the tree alike. -/
theorem arityInvariant : ArityInvariant I where
  source := hI.source
  push := hI.push
  binding := hI.binding
  classifies := hI.classifies
  settled _ _ _ _ := hI.alike (.of_modify (fun _ => rfl) .inl)
  tallies ht := hI.alike ht.toAlike

/-- An invariant holds of every reachable tree. -/
theorem of_reachable (h : t.Reachable) : I t := by
  induction h with
  | source source => exact hI.source source
  | push h hp hi ih => exact hI.push h.wellFormed hp hi ih
  | resolve h plugin options ih => exact hI.arityInvariant.resolve h.wellFormed ih plugin options
  | alike _ ha ih => exact hI.alike ha ih

end Invariant

end Schemata.ItemTree
