import Schemata.Proofs.Alternatives
import Schemata.Proofs.Tree.Invariants

/-! Variants within variants.

An alternative may stand for another variant. If everything on the way occurs exactly once, the
alternatives of that one unfold where it is listed. An admission puts them in its place as well, but
looks at the alternative alone for how often it occurs, so that it lists the same only if nothing on
the way makes a difference (`NestsSingly`). -/
namespace Schemata.ItemTree

variable {t t' : ItemTree} {id v w x y z : ItemId}

/-! ### Alternatives are no variants -/

/-- No alternative has alternatives of its own, nor names that are still to be bound to some. -/
def PlainAlternatives (t : ItemTree) : Prop := ∀ x, ∀ y ∈ (t.item x).alternatives,
  (t.item y).alternatives = [] ∧ (t.item y).rawReferences = []

/-- No item becomes an alternative that was none, unless it is new. -/
theorem Binding.alternative_old {t₀ : ItemTree} (hbinding : Binding t₀ id t) (ht : t₀.WellFormed)
    (hy : y ∈ (t.item x).alternatives) (hlt : y.index < t₀.size) :
    y ∈ (t₀.item x).alternatives := by
  by_cases hx : x = id
  · subst hx
    obtain ⟨hlt', hparent⟩ := hbinding.rooted.listed x y (List.mem_append_left _ hy)
    have hroot : y ≠ root := by
      rintro rfl
      rw [hbinding.rooted.rootParent] at hparent
      cases hparent
    have hne : y ≠ x := by
      rintro rfl
      exact Nat.lt_irrefl _ (hbinding.rooted.lt_of_parent hlt' hparent)
    obtain ⟨p, hp, _, hlisted⟩ := ht.rooted.parent y hlt hroot
    have hsame : (t.item y).parent = (t₀.item y).parent :=
      (congrArg Item.parent (hbinding.others y hne hlt) :)
    obtain rfl : x = p := Option.some.inj (hparent.symm.trans (hsame.trans hp))
    rcases List.mem_append.1 hlisted with halternative | hchild
    · exact halternative
    · rw [← hbinding.children] at hchild
      exact absurd rfl ((List.nodup_append.1 (hbinding.rooted.nodup x)).2.2 y hy y hchild)
  · rwa [hbinding.alternatives x hx] at hy

theorem Binding.plainAlternatives {t₀ : ItemTree} (hbinding : Binding t₀ id t)
    (ht : t₀.WellFormed) (hraw : (t₀.item id).rawReferences ≠ []) (h : t₀.PlainAlternatives) :
    t.PlainAlternatives := by
  intro x y hy
  by_cases hlt : y.index < t₀.size
  · obtain ⟨halternatives, hbound⟩ := h x y (hbinding.alternative_old ht hy hlt)
    have hne : y ≠ id := by
      rintro rfl
      exact hraw hbound
    exact ⟨(hbinding.alternatives y hne).trans halternatives,
      (congrArg Item.rawReferences (hbinding.others y hne hlt) :).trans hbound⟩
  · have hle := Nat.le_of_not_lt hlt
    have hne : y ≠ id := by
      rintro rfl
      rw [item_of_size_le hle] at hraw
      exact hraw rfl
    refine ⟨?_, (hbinding.kindless y (.inr hle)).2⟩
    rw [hbinding.alternatives y hne, item_of_size_le hle]
    rfl

theorem Classifies.alternatives (hc : t.Classifies id t') (hid : id.index < t.size) (x : ItemId) :
    (t'.item x).alternatives = (t.item x).alternatives := by
  cases hc with
  | known _ he => rw [he]
  | kind _ k t₁ ha _ _ _ he =>
    rw [he, setKind_eq]
    exact (field_modify (f := withKind k) Item.alternatives (fun _ => rfl) x).trans
      (ha.field Item.alternatives (fun _ => rfl) x)
  | split _ _ type _ he =>
    rw [he]
    by_cases hx : x = t.nextId
    · rw [hx, item_splitSimple_nextId hid,
        item_of_size_le (show t.size ≤ t.nextId.index from Nat.le_refl _)]
      rfl
    · exact field_splitSimple hid Item.alternatives (fun _ => rfl) hx

theorem invariant_plainAlternatives : Invariant PlainAlternatives where
  source source x y hy := by
    by_cases hx : x.index < (ofSource source).size
    · obtain ⟨k⟩ := x
      obtain rfl : k = 0 := Nat.lt_one_iff.1 hx
      cases hy
    · rw [item_of_size_le (Nat.le_of_not_lt hx)] at hy
      cases hy
  push {t p i} ht hp hi h x y hy := by
    by_cases hx : x = t.nextId
    · rw [hx, item_push_nextId hp] at hy
      rw [show ({ i with id := t.nextId, parent := some p } : Item).alternatives = [] from
        hi.fresh.alternatives] at hy
      cases hy
    · rw [item_push_old hp hx] at hy
      have hlt := (ht.rooted.listed x y (List.mem_append_left _ hy)).1
      rw [item_push_old hp (ne_nextId hlt)]
      exact h x y hy
  binding ht hraw hbinding h := hbinding.plainAlternatives ht hraw h
  classifies {t t' id} ht hb hid hc h x y hy := by
    rw [hc.alternatives hid] at hy
    exact ⟨(hc.alternatives hid y).trans (h x y hy).1, (hc.refined ht hb hid).bound y (hb y)⟩
  alike {t t'} ha h x y hy := by
    rw [ha.field Item.alternatives fun _ => rfl] at hy
    rw [ha.field Item.alternatives fun _ => rfl, ha.field Item.rawReferences fun _ => rfl]
    exact h x y hy

theorem Reachable.kind_of_alternative (h : t.Reachable) (hy : y ∈ (t.item x).alternatives) :
    (t.item y).kind ≠ some .variant := fun hk =>
  ((h.wellFormed.regular.items y).suits _ hk).2
    (invariant_plainAlternatives.of_reachable h x y hy).1

/-! ### Standing for a variant -/

/-- An item occurs exactly once. -/
def Single (t : ItemTree) (x : ItemId) : Prop := (t.item x).arity.getD .one = .one

/-- A reference stands for a variant, and everything on the way to it occurs exactly once, as does
the variant. -/
inductive SinglyFor (t : ItemTree) : ItemId → ItemId → Prop
  | variant {v : ItemId} (hk : (t.item v).kind = some .variant) (hone : t.Single v) :
    t.SinglyFor v v
  | refers {y z v : ItemId} (hone : t.Single y) (h : t.Refers y z) (hz : t.SinglyFor z v) :
    t.SinglyFor y v

theorem SinglyFor.single (h : t.SinglyFor y v) : t.Single y := by
  cases h with
  | variant _ hone => exact hone
  | refers hone => exact hone

theorem SinglyFor.kind (h : t.SinglyFor y v) : (t.item v).kind = some .variant := by
  induction h with
  | variant hk => exact hk
  | refers _ _ _ ih => exact ih

theorem SinglyFor.ends (h : t.SinglyFor y v) : Search.Ends t.referenceStep y (.item v) := by
  induction h with
  | variant hk => exact .halt (referenceStep_of_ne (by simp [hk]))
  | refers _ h _ ih => exact .go (follows_of_refers h) ih

theorem SinglyFor.of_refers (h : t.Refers y z) (hy : t.SinglyFor y v) : t.SinglyFor z v := by
  cases hy with
  | variant hk =>
    rw [h.1] at hk
    cases hk
  | @refers _ z' _ _ h' hz =>
    obtain rfl : z = z' := Target.item.inj (Option.some.inj (h.2.symm.trans h'.2))
    exact hz

/-- An alias stands for what anything behind it stands for, as it occurs as often. -/
theorem Settled.singlyFor_iff (h : t.Settled) (hyz : Relation.ReflTransGen t.Behind y z) :
    t.SinglyFor y v ↔ t.SinglyFor z v := by
  induction hyz with
  | refl => exact Iff.rfl
  | @tail x z _ hxz ih =>
    refine ih.trans ⟨SinglyFor.of_refers hxz.2, fun hz => .refers ?_ hxz.2 hz⟩
    unfold Single
    rw [← h.aliases _ _ hxz.2 hxz.1.2]
    exact hz.single

/-! ### Nesting -/

/-- One of the alternatives of a variant stands for another one. -/
def Nests (t : ItemTree) (v w : ItemId) : Prop := ∃ y ∈ (t.item v).alternatives, t.SinglyFor y w

/-- One of the alternatives of a variant, or of those nested in it. -/
def Unfolds (t : ItemTree) (v y : ItemId) : Prop :=
  ∃ w, Relation.ReflTransGen t.Nests v w ∧ y ∈ (t.item w).alternatives

/-- The variant that `y` stands for comes up in `x` without `y` too: it is nested in itself, or
another alternative stands for it. -/
def Surplus (t : ItemTree) (x y w : ItemId) : Prop :=
  Relation.TransGen t.Nests w w ∨ ∃ z, z ≠ y ∧ t.Unfolds x z ∧ t.SinglyFor z w

/-- Whatever stands for another variant in `x` does so by items that occur exactly once. -/
def NestsSingly (t : ItemTree) (x : ItemId) : Prop :=
  ∀ y w, t.Unfolds x y → t.nestedVariant y = some w → t.SinglyFor y w

/-- Every variant that is nested in `x` is nested there once, and not in itself. -/
structure NestsOnce (t : ItemTree) (x : ItemId) : Prop where
  once : ∀ y z w, t.Unfolds x y → t.Unfolds x z → t.SinglyFor y w → t.SinglyFor z w → z = y
  acyclic : ∀ w, Relation.ReflTransGen t.Nests x w → ¬Relation.TransGen t.Nests w w

theorem Unfolds.path (h : t.Unfolds x y) (hy : t.SinglyFor y w) :
    Relation.ReflTransGen t.Nests x w := by
  obtain ⟨v, hxv, hmem⟩ := h
  exact hxv.tail ⟨y, hmem, hy⟩

theorem NestsOnce.not_surplus (h : t.NestsOnce x) (hx : t.Unfolds x y) (hy : t.SinglyFor y w) :
    ¬t.Surplus x y w := by
  rintro (hcircle | ⟨z, hne, hz, hzw⟩)
  · exact h.acyclic w (hx.path hy) hcircle
  · exact hne (h.once y z w hx hz hy hzw)

/-! ### What an admission lists -/

theorem nestedVariant_eq_some_iff : t.nestedVariant y = some w ↔
    Search.Ends t.referenceStep y (.item w) ∧ w ≠ y ∧ (t.item w).kind = some .variant := by
  unfold nestedVariant
  rw [← chainEnd_eq_ok_iff]
  constructor
  · intro h
    split at h
    · next last hend =>
      split at h
      · next hlast =>
        obtain rfl := Option.some.inj h
        exact ⟨hend, hlast⟩
      · cases h
    · cases h
  · rintro ⟨hend, hlast⟩
    rw [hend]
    exact if_pos hlast

theorem SinglyFor.nestedVariant (h : t.SinglyFor y w) (hy : (t.item y).kind ≠ some .variant) :
    t.nestedVariant y = some w :=
  nestedVariant_eq_some_iff.2 ⟨h.ends, fun he => hy (he ▸ h.kind), h.kind⟩

theorem expansion_eq_none (h : t.nestedVariant y = none) : t.expansion y = none := by
  unfold expansion
  rw [h]

theorem expansion_of_nestedVariant (hone : t.Single y) (h : t.nestedVariant y = some w) :
    t.expansion y = some (t.item w).alternatives := by
  have hall : (t.item y).arity.all Arity.isExactlyOne := by
    unfold Single at hone
    cases harity : (t.item y).arity with
    | none => rfl
    | some arity =>
      rw [harity] at hone
      exact decide_eq_true hone
  unfold expansion
  rw [h]
  exact if_pos hall

/-- An admission meets only what unfolds, if nothing stands for a variant in another way. -/
theorem NestsSingly.unfolds (h : t.NestsSingly x)
    (hy : Search.Reachable (fun a => (t.expansion a).getD []) (t.item x).alternatives y) :
    t.Unfolds x y := by
  obtain ⟨start, hstart, hpath⟩ := hy
  induction hpath with
  | refl => exact ⟨x, .refl, hstart⟩
  | @tail z y _ hzy ih =>
    replace hzy : y ∈ (t.expansion z).getD [] := hzy
    cases hn : t.nestedVariant z with
    | none =>
      rw [expansion_eq_none hn] at hzy
      cases hzy
    | some w =>
      have hzw := h z w ih hn
      rw [expansion_of_nestedVariant hzw.single hn] at hzy
      exact ⟨w, ih.path hzw, hzy⟩

section Flat

-- alternatives occur exactly once and are no variants themselves
variable (halternative : ∀ v, ∀ y ∈ (t.item v).alternatives,
  t.Single y ∧ (t.item y).kind ≠ some .variant)
include halternative

/-- In turn it meets all that unfolds. -/
theorem Unfolds.reachable (h : t.Unfolds x y) :
    Search.Reachable (fun a => (t.expansion a).getD []) (t.item x).alternatives y := by
  obtain ⟨w, hxw, hy⟩ := h
  induction hxw generalizing y with
  | refl => exact ⟨y, hy, .refl⟩
  | @tail v w _ hvw ih =>
    obtain ⟨z, hz, hzw⟩ := hvw
    obtain ⟨hone, hk⟩ := halternative v z hz
    obtain ⟨start, hstart, hpath⟩ := ih hz
    refine ⟨start, hstart, hpath.tail (show y ∈ (t.expansion z).getD [] from ?_)⟩
    rw [expansion_of_nestedVariant hone (hzw.nestedVariant hk)]
    exact hy

/-- The alternatives that an admission lists are those that stand for no variant. -/
theorem NestsSingly.mem_flatAlternatives_iff (h : t.NestsSingly x) (hr : t.Rooted) :
    y ∈ t.flatAlternatives x ↔ t.Unfolds x y ∧ ∀ w, ¬t.SinglyFor y w := by
  rw [hr.mem_flatAlternatives_iff]
  constructor
  · rintro ⟨hreach, hnone⟩
    have hunfolds := h.unfolds hreach
    obtain ⟨v, _, hmem⟩ := id hunfolds
    obtain ⟨hone, hk⟩ := halternative v y hmem
    refine ⟨hunfolds, fun w hw => ?_⟩
    rw [expansion_of_nestedVariant hone (hw.nestedVariant hk)] at hnone
    cases hnone
  · rintro ⟨hunfolds, hnot⟩
    refine ⟨hunfolds.reachable halternative, ?_⟩
    cases hn : t.nestedVariant y with
    | none => exact expansion_eq_none hn
    | some w => exact absurd (h y w hunfolds hn) (hnot w)

end Flat

/-! ### A single nested variant -/

section One

-- `y` alone stands for a variant in `x`, and nothing does in that one
variable (halternative : ∀ v, ∀ y ∈ (t.item v).alternatives, (t.item y).kind ≠ some .variant)
  (hx : ∀ z ∈ (t.item x).alternatives, ∀ v, t.nestedVariant z = some v → z = y ∧ v = w)
  (hw : ∀ z ∈ (t.item w).alternatives, t.nestedVariant z = none)
include halternative hw

theorem not_nests_of_none : ¬t.Nests w v := fun ⟨z, hz, hzv⟩ => by
  have hnested := hzv.nestedVariant (halternative w z hz)
  rw [hw z hz] at hnested
  cases hnested

include hx

theorem path_of_one (hxv : Relation.ReflTransGen t.Nests x v) : v = x ∨ v = w := by
  induction hxv with
  | refl => exact .inl rfl
  | @tail u v _ huv ih =>
    rcases ih with rfl | rfl
    · obtain ⟨z, hz, hzv⟩ := huv
      exact .inr (hx z hz v (hzv.nestedVariant (halternative u z hz))).2
    · exact absurd huv (not_nests_of_none halternative hw)

theorem nested_of_one (hz : t.Unfolds x z) (hv : t.nestedVariant z = some v) : z = y ∧ v = w := by
  obtain ⟨u, hxu, hmem⟩ := hz
  rcases path_of_one halternative hx hw hxu with rfl | rfl
  · exact hx z hmem v hv
  · rw [hw z hmem] at hv
    cases hv

theorem nestsSingly_of_one (hy : t.SinglyFor y w) : t.NestsSingly x := fun z v hz hv => by
  obtain ⟨rfl, rfl⟩ := nested_of_one halternative hx hw hz hv
  exact hy

theorem nestsOnce_of_one : t.NestsOnce x where
  once z z' v hz hz' hzv hzv' := by
    have hy : ∀ z, t.Unfolds x z → t.SinglyFor z v → z = y := fun z hz hzv => by
      obtain ⟨u, _, hmem⟩ := id hz
      exact (nested_of_one halternative hx hw hz (hzv.nestedVariant (halternative u z hmem))).1
    exact (hy z' hz' hzv').trans (hy z hz hzv).symm
  acyclic v hxv hcircle := by
    obtain ⟨u, hvu, huv⟩ := Relation.TransGen.tail'_iff.1 hcircle
    have hnot := not_nests_of_none (v := v) halternative hw
    -- only from `x` does anything lead on, and that to `w`
    rcases path_of_one halternative hx hw (hxv.trans hvu) with rfl | rfl
    · obtain ⟨z, hz, hzv⟩ := id huv
      obtain rfl := (hx z hz v (hzv.nestedVariant (halternative u z hz))).2
      obtain ⟨_, hvu', _⟩ := Relation.TransGen.head'_iff.1 hcircle
      exact not_nests_of_none halternative hw hvu'
    · exact hnot huv

end One
end Schemata.ItemTree
