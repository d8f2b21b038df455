import Schemata.Draft.Assembly
import Schemata.Proofs.Search
import Schemata.Proofs.Tree.Reachable

/-! Chains of references in a resolved tree.

Every chain ends at an item that is no reference. What stands for an item is further
along its chain, and no mere alias unless aliases are to stay. -/
namespace Schemata.ItemTree

open Search

variable {t : ItemTree} {x y z : ItemId} {target : Target} {type : Fundamental}

/-! ### Steps -/

theorem target?_of_references {i : Item} (h : i.references = [target]) :
    i.target? = some target := by
  unfold Item.target?
  rw [h]

theorem itemReferences_of_references {i : Item} (h : i.references = [.item y]) :
    i.itemReferences = [y] := by
  unfold Item.itemReferences
  rw [h]
  rfl

/-- A reference refers to one item, which is there and has a name. -/
theorem Regular.reference (h : t.Regular) (hk : (t.item x).kind = some .reference) :
    ∃ y, (t.item x).references = [.item y] ∧ t.referenceStep x = .go y := by
  obtain ⟨_, _, y, hy⟩ := (h.items x).suits _ hk
  refine ⟨y, hy, ?_⟩
  unfold referenceStep
  rw [if_pos hk, target?_of_references hy]

theorem referenceStep_of_ne (hk : (t.item x).kind ≠ some .reference) :
    t.referenceStep x = .halt (.item x) := by
  unfold referenceStep
  rw [if_neg hk]

theorem kind_of_follows (h : Follows t.referenceStep x y) : (t.item x).kind = some .reference := by
  by_contra hk
  rw [Follows, referenceStep_of_ne hk] at h
  cases h

theorem Regular.references_of_follows (h : t.Regular) (hxy : Follows t.referenceStep x y) :
    (t.item x).references = [.item y] := by
  obtain ⟨z, hz, hstep⟩ := h.reference (kind_of_follows hxy)
  rw [Follows, hstep] at hxy
  cases hxy
  exact hz

/-- A reference and what it refers to. -/
def Refers (t : ItemTree) (x y : ItemId) : Prop :=
  (t.item x).kind = some .reference ∧ (t.item x).target? = some (.item y)

theorem Regular.refers (h : t.Regular) (hk : (t.item x).kind = some .reference) :
    ∃ y, t.Refers x y := by
  obtain ⟨y, hy, _⟩ := h.reference hk
  exact ⟨y, hk, target?_of_references hy⟩

theorem Regular.lt_of_refers (h : t.Regular) (hxy : t.Refers x y) : y.index < t.size := by
  refine (h.references x y ?_).1
  rw [target?_eq_some hxy.2]
  exact List.mem_singleton_self _

theorem Regular.named_of_refers (h : t.Regular) (hxy : t.Refers x y) :
    (t.item y).name.isSome := by
  refine (h.references x y ?_).2
  rw [target?_eq_some hxy.2]
  exact List.mem_singleton_self _

/-- A reference that changes nothing about its target. -/
def IsAlias (t : ItemTree) (x : ItemId) : Prop :=
  (t.item x).kind = some .reference ∧ (t.item x).isAugmenting = false

/-- Behind an alias there is its target. -/
def Behind (t : ItemTree) (x y : ItemId) : Prop := t.IsAlias x ∧ t.Refers x y

theorem follows_of_refers (h : t.Refers x y) : Follows t.referenceStep x y := by
  unfold Follows referenceStep
  rw [if_pos h.1, h.2]

theorem Regular.refers_of_follows (h : t.Regular) (hxy : Follows t.referenceStep x y) :
    t.Refers x y :=
  ⟨kind_of_follows hxy, target?_of_references (h.references_of_follows hxy)⟩

theorem chainEnd_eq_ok_iff : t.chainEnd x = .ok target ↔ Ends t.referenceStep x target := by
  have hgo : ∀ x y, t.referenceStep x = .go y → x ∈ t.ids := fun x y hxy =>
    (t.mem_ids x).2 (lt_size_of_kind (kind_of_follows hxy))
  rw [← chase_eq_ended_iff hgo (show t.ids.length < t.size + 1 by simp [ids])]
  unfold chainEnd
  cases chase t.referenceStep (t.size + 1) x with
  | ended r => simp
  | looped node => simp

theorem fundamentalOf_eq_some_iff :
    t.fundamentalOf x = some type ↔ Ends t.fundamentalStep x (some type) := by
  have hgo : ∀ x y, t.fundamentalStep x = .go y → x ∈ t.ids := fun x y hxy => by
    cases hk : (t.item x).kind with
    | none =>
      unfold fundamentalStep at hxy
      rw [hk] at hxy
      cases hxy
    | some k => exact (t.mem_ids x).2 (lt_size_of_kind hk)
  rw [← chase_eq_ended_iff hgo (show t.ids.length < t.size + 1 by simp [ids])]
  unfold fundamentalOf
  cases chase t.fundamentalStep (t.size + 1) x with
  | ended r => simp
  | looped node => simp

/-! ### Ends -/

/-- References lead to the end of a chain. -/
theorem Regular.refers_of_ends (h : t.Regular) (hends : Ends t.referenceStep x (.item y)) :
    Relation.ReflTransGen t.Refers x y := by
  generalize htarget : Target.item y = target at hends
  induction hends with
  | @halt x r hstep =>
    subst htarget
    by_cases hk : (t.item x).kind = some .reference
    · obtain ⟨z, _, hgo⟩ := h.reference hk
      rw [hgo] at hstep
      cases hstep
    · rw [referenceStep_of_ne hk] at hstep
      cases hstep
      exact .refl
  | go hstep _ ih => exact .head (h.refers_of_follows hstep) (ih htarget)

/-- Every chain ends at an item that is no reference. -/
theorem Resolved.ends (h : t.Resolved) (x : ItemId) :
    ∃ last, Ends t.referenceStep x (.item last) ∧ (t.item last).kind ≠ some .reference := by
  have hends : ∃ target, Ends t.referenceStep x target := by
    by_cases hk : (t.item x).kind = some .reference
    · obtain ⟨target, htarget⟩ := h.chains x hk
      exact ⟨target, chainEnd_eq_ok_iff.1 htarget⟩
    · exact ⟨_, .halt (referenceStep_of_ne hk)⟩
  obtain ⟨target, htarget⟩ := hends
  suffices hlast : ∃ last, target = .item last ∧ (t.item last).kind ≠ some .reference by
    obtain ⟨last, rfl, hk⟩ := hlast
    exact ⟨last, htarget, hk⟩
  induction htarget with
  | @halt x r hstep =>
    by_cases hk : (t.item x).kind = some .reference
    · obtain ⟨y, _, hgo⟩ := h.wellFormed.regular.reference hk
      rw [hgo] at hstep
      cases hstep
    · rw [referenceStep_of_ne hk] at hstep
      cases hstep
      exact ⟨x, rfl, hk⟩
  | go _ _ ih => exact ih

/-- An extension is the end of its own chain. -/
theorem Regular.ends_extension (h : t.Regular) (hx : (t.item x).isExtension) :
    Ends t.referenceStep x (.item x) := by
  refine .halt (referenceStep_of_ne fun hk => ?_)
  have hform := ((h.items x).suits _ hk).1
  unfold Item.isExtension at hx
  rw [hform] at hx
  cases hx

/-- No chain from a reference of an admitted item passes an extension. -/
theorem Admitted.not_extension (h : t.Admitted) (hx : (t.item x).isExtension = false)
    (hy : y ∈ (t.item x).itemReferences)
    (hyz : Relation.ReflTransGen (Follows t.referenceStep) y z) :
    (t.item z).isExtension = false := by
  have hlt : x.index < t.size := by
    by_contra hn
    rw [item_of_size_le (Nat.le_of_not_lt hn)] at hy
    cases hy
  obtain ⟨target, hend, hlast⟩ := (h.admits x hlt hx).references y hy
  by_contra hext
  rw [Bool.not_eq_false] at hext
  have hz := (chainEnd_eq_ok_iff.1 hend).follow hyz
  have he := hz.unique (h.resolved.wellFormed.regular.ends_extension hext)
  rw [hlast z he] at hext
  cases hext

end Schemata.ItemTree

/-! ### What stands for an item -/

namespace Schemata.Blueprint

open Search

variable {b : Blueprint} {x y : ItemId}

theorem isAlias_iff : b.isAlias x = true ↔ b.tree.IsAlias x := by
  unfold isAlias ItemTree.IsAlias
  rw [Bool.and_eq_true, decide_eq_true_eq, Bool.not_eq_true']

theorem behind_of_aliasStep (h : b.aliasStep x = .go y) : b.tree.Behind x y := by
  unfold aliasStep at h
  split at h
  · next halias =>
    have hx := isAlias_iff.1 halias
    split at h
    · next target htarget =>
      cases h
      exact ⟨hx, hx.1, htarget⟩
    · cases h
  · cases h

theorem follows_of_aliasStep (h : b.aliasStep x = .go y) : Follows b.tree.referenceStep x y :=
  ItemTree.follows_of_refers (behind_of_aliasStep h).2

theorem aliasStep_of_not_isAlias (hn : b.isAlias x = false) : b.aliasStep x = .halt x := by
  unfold aliasStep
  rw [if_neg (by simp [hn])]

/-- A mere alias goes on to what it refers to. -/
theorem aliasStep_of_follows (h : b.tree.Resolved) (hn : b.isAlias x)
    (hxy : Follows b.tree.referenceStep x y) : b.aliasStep x = .go y := by
  unfold aliasStep
  rw [if_pos hn,
    ItemTree.target?_of_references (h.wellFormed.regular.references_of_follows hxy)]

/-- What stands for an item comes after aliases only, and is none unless aliases are to stay. -/
theorem aliases_standIn (h : b.tree.Resolved) (x : ItemId) :
    Relation.ReflTransGen (Follows b.aliasStep) x (b.standIn x) ∧
      (b.preserveReferences = false → b.isAlias (b.standIn x) = false) := by
  unfold standIn
  split
  · next hp => exact ⟨.refl, fun hn => absurd (hp.symm.trans hn) (by simp)⟩
  · obtain ⟨last, hends, _⟩ := h.ends x
    suffices halias : ∃ y, Ends b.aliasStep x y ∧
        Relation.ReflTransGen (Follows b.aliasStep) x y ∧ b.isAlias y = false by
      obtain ⟨y, hy, hxy, hn⟩ := halias
      have hgo : ∀ x y, b.aliasStep x = .go y → x ∈ b.tree.ids := fun x y hxy =>
        (b.tree.mem_ids x).2 (ItemTree.lt_size_of_kind
          (ItemTree.kind_of_follows (follows_of_aliasStep hxy)))
      rw [(chase_eq_ended_iff hgo (show b.tree.ids.length < b.tree.size + 1 by
        simp [ItemTree.ids]) x y).2 hy]
      exact ⟨hxy, fun _ => hn⟩
    generalize Target.item last = target at hends
    induction hends with
    | @halt x r hstep =>
      have hn : b.isAlias x = false := by
        by_contra hn
        rw [Bool.not_eq_false, isAlias_iff] at hn
        obtain ⟨y, _, hgo⟩ := h.wellFormed.regular.reference hn.1
        rw [hgo] at hstep
        cases hstep
      exact ⟨x, .halt (aliasStep_of_not_isAlias hn), .refl, hn⟩
    | @go x y r hstep _ ih =>
      cases hn : b.isAlias x with
      | false => exact ⟨x, .halt (aliasStep_of_not_isAlias hn), .refl, hn⟩
      | true =>
        obtain ⟨z, hz, hyz, hnz⟩ := ih
        have hgo := aliasStep_of_follows h hn hstep
        exact ⟨z, .go hgo hz, .head hgo hyz, hnz⟩

/-- What stands for an item is further along its chain. -/
theorem follows_standIn (h : b.tree.Resolved) (x : ItemId) :
    Relation.ReflTransGen (Follows b.tree.referenceStep) x (b.standIn x) ∧
      (b.preserveReferences = false → b.isAlias (b.standIn x) = false) := by
  obtain ⟨hxy, hn⟩ := aliases_standIn h x
  exact ⟨Relation.ReflTransGen.mono (fun _ _ => follows_of_aliasStep) _ _ hxy, hn⟩

/-- What stands for itself is no mere alias, unless aliases are to stay. -/
theorem isAlias_of_standIn_eq (h : b.tree.Resolved) (hx : b.standIn x = x)
    (hp : b.preserveReferences = false) : b.isAlias x = false := by
  have halias := (follows_standIn h x).2 hp
  rwa [hx] at halias

theorem standIn_eq_of_not_isAlias (hx : b.isAlias x = false ∨ b.preserveReferences = true) :
    b.standIn x = x := by
  unfold standIn
  split
  · rfl
  · next hp =>
    unfold chase chaseFrom
    rw [aliasStep_of_not_isAlias (hx.resolve_right hp)]

/-- What stands for an alias stands for what it refers to. -/
theorem standIn_of_aliasStep (h : b.tree.Resolved) (hp : b.preserveReferences = false)
    (hxy : b.aliasStep x = .go y) : b.standIn x = b.standIn y := by
  have hhalt : ∀ {z w}, b.isAlias z = false → Relation.ReflTransGen (Follows b.aliasStep) z w →
      w = z := fun hz hzw => by
    rcases hzw.cases_head with heq | ⟨v, hv, _⟩
    · exact heq.symm
    · rw [Follows, aliasStep_of_not_isAlias hz] at hv
      cases hv
  obtain ⟨hx, hnx⟩ := aliases_standIn h x
  obtain ⟨hy, hny⟩ := aliases_standIn h y
  have hunique : Relator.RightUnique (Follows b.aliasStep) := fun _ _ _ hab hac => by
    rw [Follows, hab] at hac
    exact (Step.go.inj hac)
  rcases Relation.ReflTransGen.total_of_right_unique hunique hx (.head hxy hy) with hpath | hpath
  · exact (hhalt (hnx hp) hpath).symm
  · exact hhalt (hny hp) hpath

end Schemata.Blueprint
