import Schemata.Proofs.Order.Numbering
import Schemata.Proofs.Tree.Meanings
import Schemata.Proofs.Tree.Reachable

/-! Names in trees that differ in the order of children.

A name is looked for among the children of one item after another. Where no two
siblings have one name it makes no difference in which order they stand. So a name
stands for corresponding items, or for nothing in both trees, and names are bound in
the one tree exactly if they are in the other. -/
namespace Schemata

namespace ItemTree

open Item

variable {t u : ItemTree} {σ : Equiv.Perm ItemId} {self x p c : ItemId} {name : String}

/-- No two children of an item have the same name. -/
def DistinctSiblings (t : ItemTree) : Prop :=
  ∀ p, ∀ a ∈ (t.item p).children, ∀ b ∈ (t.item p).children,
    (t.item a).name.isSome → (t.item a).name = (t.item b).name → a = b

theorem distinctSiblings_iff : t.DistinctSiblings ↔ ∀ p ∈ t.ids, ∀ a ∈ (t.item p).children,
    ∀ b ∈ (t.item p).children,
      (t.item a).name.isSome → (t.item a).name = (t.item b).name → a = b := by
  refine ⟨fun h p _ => h p, fun h p a ha => h p ?_ a ha⟩
  rw [mem_ids]
  by_contra hp
  rw [item_of_size_le (Nat.le_of_not_lt hp)] at ha
  cases ha

instance (t : ItemTree) : Decidable t.DistinctSiblings :=
  decidable_of_iff _ distinctSiblings_iff.symm

/-- The only child of a name is found, wherever it stands. -/
theorem DistinctSiblings.childNamedExcept_eq_some_iff (hd : t.DistinctSiblings) :
    t.childNamedExcept (some self) p name = some c ↔
      c ∈ (t.item p).children ∧ c ≠ self ∧ (t.item c).name = some name := by
  have hfound : ∀ a, t.childNamedExcept (some self) p name = some a →
      a ∈ (t.item p).children ∧ a ≠ self ∧ (t.item a).name = some name := fun a ha => by
    have hp := List.find?_some ha
    simp only [ne_eq, Option.some.injEq, decide_eq_true_eq] at hp
    exact ⟨List.mem_of_find?_eq_some ha, hp⟩
  refine ⟨hfound c, fun ⟨hmem, hne, hname⟩ => ?_⟩
  cases ha : t.childNamedExcept (some self) p name with
  | none =>
    have hp := List.find?_eq_none.1 ha c hmem
    simp [hne, hname] at hp
  | some a =>
    obtain ⟨hmem', _, hname'⟩ := hfound a ha
    exact congrArg some
      (hd p a hmem' c hmem (by rw [hname']; rfl) (hname'.trans hname.symm))

namespace Reordered

variable (h : t.Reordered σ u)
include h

theorem distinctSiblings (hd : t.DistinctSiblings) : u.DistinctSiblings := by
  intro p a ha b hb hsome hab
  obtain ⟨p, rfl⟩ := σ.surjective p
  obtain ⟨a, rfl⟩ := σ.surjective a
  obtain ⟨b, rfl⟩ := σ.surjective b
  rw [h.field Item.name fun _ => rfl, h.field Item.name fun _ => rfl] at hab
  rw [h.field Item.name fun _ => rfl] at hsome
  exact congrArg σ (hd p a (h.mem_children.1 ha) b (h.mem_children.1 hb) hsome hab)

/-! ### Lookups -/

theorem ancestry (x : ItemId) : u.ancestry (σ x) = (t.ancestry x).map σ := by
  have hall : ∀ (n : Nat) (x : Option ItemId),
      u.ancestryFrom n (x.map σ) = (t.ancestryFrom n x).map σ := by
    intro n
    induction n with
    | zero => exact fun _ => rfl
    | succ n ih =>
      intro x
      cases x with
      | none => rfl
      | some x =>
        show σ x :: u.ancestryFrom n (u.item (σ x)).parent = _
        rw [(h.item x).parent, ih]
        rfl
  unfold ItemTree.ancestry
  rw [h.size]
  exact hall t.size (some x)

section Distinct

variable (hd : t.DistinctSiblings)
include hd

theorem childNamedExcept (self p : ItemId) (name : String) :
    u.childNamedExcept (some (σ self)) (σ p) name =
      (t.childNamedExcept (some self) p name).map σ := by
  refine Option.ext fun c => ?_
  obtain ⟨c, rfl⟩ := σ.surjective c
  rw [(h.distinctSiblings hd).childNamedExcept_eq_some_iff, h.mem_children,
    h.field Item.name fun _ => rfl, σ.injective.ne_iff, ← hd.childNamedExcept_eq_some_iff,
    Option.map_eq_some_iff]
  constructor
  · exact fun hc => ⟨c, hc, rfl⟩
  · rintro ⟨c', hc', he⟩
    exact σ.injective he ▸ hc'

theorem followPath (self scope : ItemId) (names : List String) :
    u.followPath (σ self) (σ scope) names = (t.followPath self scope names).map σ := by
  induction names generalizing scope with
  | nil => rfl
  | cons name rest ih =>
    unfold ItemTree.followPath
    rw [h.childNamedExcept hd]
    cases t.childNamedExcept (some self) scope name with
    | none => rfl
    | some child => exact ih child

theorem findSome?_followPath (self x : ItemId) (names : List String) :
    ((u.ancestry (σ x)).findSome? fun scope => u.followPath (σ self) scope names) =
      ((t.ancestry x).findSome? fun scope => t.followPath self scope names).map σ := by
  rw [h.ancestry]
  induction t.ancestry x with
  | nil => rfl
  | cons scope rest ih =>
    rw [List.map_cons, List.findSome?_cons, List.findSome?_cons, h.followPath hd]
    cases t.followPath self scope names with
    | none => exact ih
    | some y => rfl

/-- A name stands for corresponding targets. -/
theorem lookup (x : ItemId) (name : String) :
    u.lookup (σ x) name = (t.lookup x name).map (Target.rename σ) := by
  unfold ItemTree.lookup
  cases Builtin.ofKeyword? name with
  | some type => rfl
  | none =>
    rw [h.findSome?_followPath hd, Option.map_map, Option.map_map]
    rfl

/-- So it does where something new uses it. -/
theorem lookupUnder (ht : t.Rooted) (hu : u.Rooted) (p : ItemId) (name : String) :
    u.lookupUnder (σ p) name = (t.lookupUnder p name).map (Target.rename σ) := by
  have hself : ∀ scope, u.followPath u.nextId scope (pathNames name) =
      u.followPath (σ t.nextId) scope (pathNames name) := by
    refine fun scope => followPath_of_nobody (fun q hmem => ?_) (fun q hmem => ?_) scope _
    · exact Nat.lt_irrefl _ (hu.listed q _ (List.mem_append_right _ hmem)).1
    · obtain ⟨q, rfl⟩ := σ.surjective q
      exact Nat.lt_irrefl _
        (ht.listed q t.nextId (List.mem_append_right _ (h.mem_children.1 hmem))).1
  unfold ItemTree.lookupUnder
  simp only [hself]
  cases Builtin.ofKeyword? name with
  | some type => rfl
  | none =>
    dsimp only
    rw [h.findSome?_followPath hd, Option.map_map, Option.map_map]
    rfl

theorem meaningful (ht : t.Rooted) (hu : u.Rooted) (hm : t.Meaningful x) :
    u.Meaningful (σ x) where
  unreserved := (h.field hasReservedName (fun _ => rfl) x).trans hm.unreserved
  names name hname := by
    rw [h.field Item.rawReferences fun _ => rfl] at hname
    rw [h.lookup hd, Option.isSome_map]
    exact hm.names name hname
  alternatives a ha := by
    rw [h.field Item.rawReferences fun _ => rfl] at ha
    rw [h.lookupUnder hd ht hu, Option.isSome_map]
    exact hm.alternatives a ha

end Distinct

end Reordered

/-! ### Binding -/

variable {t₁ u₁ : ItemTree}

namespace BoundFrom

variable (h : t.BoundFrom t₁) (hx : x.index < t.size)
include h hx

theorem unlinked : (t₁.item x).unlinked = cleared (t.item x).unlinked := by
  obtain ⟨targets, ids, _, _, hself⟩ := h.old x hx
  exact congrArg Item.unlinked hself

theorem forall₂_references (hnone : (t.item x).references = []) :
    List.Forall₂ (fun name target => t.lookup x name = some target)
      (writtenNames (t.item x).rawReferences) (t₁.item x).references := by
  obtain ⟨targets, ids, htargets, _, hself⟩ := h.old x hx
  have hreferences : (t₁.item x).references = (t.item x).references ++ targets :=
    congrArg Item.references hself
  rwa [hreferences, hnone]

theorem forall₂_alternatives (hnone : (t.item x).alternatives = []) :
    List.Forall₂ (t.AlternativeOf t₁ x) (writtenAlternatives (t.item x).rawReferences)
      (t₁.item x).alternatives := by
  obtain ⟨targets, ids, _, hids, hself⟩ := h.old x hx
  have halternatives : (t₁.item x).alternatives = (t.item x).alternatives ++ ids :=
    congrArg Item.alternatives hself
  rwa [halternatives, hnone]

end BoundFrom

/-- An item is an alternative in one place only. -/
theorem Rooted.place_unique (ht : t.Rooted) {y : ItemId} {k l : Nat}
    (hx : (t.item x).alternatives[k]? = some c) (hy : (t.item y).alternatives[l]? = some c) :
    x = y ∧ k = l := by
  have hparent : ∀ p, c ∈ (t.item p).alternatives → (t.item c).parent = some p := fun p hc =>
    (ht.listed p c (List.mem_append_left _ hc)).2
  have hsame := (hparent x (List.mem_of_getElem? hx)).symm.trans
    (hparent y (List.mem_of_getElem? hy))
  obtain rfl := Option.some.inj hsame
  obtain ⟨hk, _⟩ := List.getElem?_eq_some_iff.1 hx
  exact ⟨rfl, (List.getElem?_inj hk (List.nodup_append.1 (ht.nodup x)).1).1 (hx.trans hy.symm)⟩

/-- The items stand in the same place among the alternatives of corresponding variants. -/
def Counterparts (t₁ u₁ : ItemTree) (σ : Equiv.Perm ItemId) (n : Nat) (c d : ItemId) : Prop :=
  ∃ (x : ItemId) (k : Nat), x.index < n ∧ (t₁.item x).alternatives[k]? = some c ∧
    (u₁.item (σ x)).alternatives[k]? = some d

namespace Reordered

variable (h : t.Reordered σ u) (ht : t.Declared) (hu : u.Declared) (hb : t.BoundFrom t₁)
  (hb' : u.BoundFrom u₁)
include h ht hu hb hb'

theorem forall₂_alternatives (hx : x.index < t.size) :
    List.Forall₂ (fun c d => ∃ a, t.AlternativeOf t₁ x a c ∧ u.AlternativeOf u₁ (σ x) a d)
      (t₁.item x).alternatives (u₁.item (σ x)).alternatives := by
  have hall := hb'.forall₂_alternatives (h.lt hx) (hu.unbound _).2
  rw [h.field Item.rawReferences fun _ => rfl] at hall
  exact forall₂_of_common (hb.forall₂_alternatives hx (ht.unbound x).2) hall

/-- New items correspond if they are made of the same alternative. -/
theorem exists_boundNumbering : u₁.size = t₁.size ∧ ∃ τ : Equiv.Perm ItemId,
    (∀ x, (τ x).index < t₁.size ↔ x.index < t₁.size) ∧ (∀ x, x.index < t.size → τ x = σ x) ∧
    ∀ c, t.size ≤ c.index → c.index < t₁.size → Counterparts t₁ u₁ σ t.size c (τ c) := by
  obtain ⟨hsize, τ, hlt, hold, hnew⟩ := exists_extension
    (R := Counterparts t₁ u₁ σ t.size) h.lt_iff hb.size (h.size ▸ hb'.size)
    (fun a hk ha => by
      obtain ⟨x, hx, hmem⟩ := hb.new a hk ha
      obtain ⟨k, hk⟩ := List.getElem?_of_mem hmem
      obtain ⟨b, hb, _, _, hnew⟩ :=
        exists_of_getElem? (h.forall₂_alternatives ht hu hb hb' hx) hk
      exact ⟨b, h.size ▸ hnew.new, hnew.lt, x, k, hx, hk, hb⟩)
    (fun b hk hb₁ => by
      obtain ⟨y, hy, hmem⟩ := hb'.new b (h.size.symm ▸ hk) hb₁
      obtain ⟨x, hx, rfl⟩ := h.surjective hy
      obtain ⟨k, hk⟩ := List.getElem?_of_mem hmem
      obtain ⟨a, ha, _, hnew, _⟩ :=
        exists_of_getElem? (h.forall₂_alternatives ht hu hb hb' hx).flip hk
      exact ⟨a, hnew.new, hnew.lt, x, k, hx, ha, hk⟩)
    (fun a b c _ _ _ hab hac => by
      obtain ⟨x, k, _, hxa, hxb⟩ := hab
      obtain ⟨y, l, _, hya, hyc⟩ := hac
      obtain ⟨rfl, rfl⟩ := hb.rooted.place_unique hxa hya
      exact Option.some.inj (hxb.symm.trans hyc))
    (fun a b c _ _ _ hac hbc => by
      obtain ⟨x, k, _, hxa, hxc⟩ := hac
      obtain ⟨y, l, _, hyb, hyc⟩ := hbc
      obtain ⟨he, rfl⟩ := hb'.rooted.place_unique hxc hyc
      obtain rfl := σ.injective he
      exact Option.some.inj (hxa.symm.trans hyb))
  exact ⟨hsize, τ, hlt, hold, fun c hk hc => (hnew c hk hc).2⟩

theorem references_bound (hd : t.DistinctSiblings) (hx : x.index < t.size) :
    (u₁.item (σ x)).references = (t₁.item x).references.map (Target.rename σ) := by
  have hall := hb'.forall₂_references (h.lt hx) (hu.unbound _).1
  rw [h.field Item.rawReferences fun _ => rfl] at hall
  have hpairs := forall₂_of_common (hb.forall₂_references hx (ht.unbound x).1) hall
  refine (List.forall₂_eq_eq_eq ▸ List.forall₂_map_left_iff.2 (hpairs.imp ?_) : _ = _).symm
  rintro target target' ⟨name, hname, hname'⟩
  rw [h.lookup hd, hname] at hname'
  exact Option.some.inj hname'

section Numbered

variable {τ : Equiv.Perm ItemId}
  (hnew : ∀ c, t.size ≤ c.index → c.index < t₁.size → Counterparts t₁ u₁ σ t.size c (τ c))
include hnew

theorem alternatives_bound (hx : x.index < t.size) :
    (u₁.item (σ x)).alternatives = (t₁.item x).alternatives.map τ := by
  have hpairs := h.forall₂_alternatives ht hu hb hb' hx
  refine List.ext_getElem? fun k => ?_
  rw [List.getElem?_map]
  cases hk : (t₁.item x).alternatives[k]? with
  | none => exact List.getElem?_eq_none (hpairs.length_eq ▸ List.getElem?_eq_none_iff.1 hk)
  | some c =>
    obtain ⟨_, _, a, hc, _⟩ := exists_of_getElem? hpairs hk
    obtain ⟨y, l, _, hyc, hyd⟩ := hnew c hc.new hc.lt
    obtain ⟨rfl, rfl⟩ := hb.rooted.place_unique hk hyc
    exact hyd

/-- What is new is made of one alternative in both trees. -/
theorem exists_alternative (hd : t.DistinctSiblings) (hr : t.Rooted) (hr' : u.Rooted)
    (hle : t.size ≤ c.index) (hlt : c.index < t₁.size) :
    ∃ x a target, x.index < t.size ∧
      (t₁.item c).unnoted =
        { unboundAlternative a with id := c, parent := some x, references := [target] } ∧
      (u₁.item (τ c)).unnoted =
        { unboundAlternative a with
          id := τ c, parent := some (σ x), references := [target.rename σ] } := by
  obtain ⟨x, k, hx, hxc, hxd⟩ := hnew c hle hlt
  obtain ⟨d, hd', a, hc, hcd⟩ :=
    exists_of_getElem? (h.forall₂_alternatives ht hu hb hb' hx) hxc
  obtain rfl : d = τ c := Option.some.inj (hd'.symm.trans hxd)
  obtain ⟨target, htarget, hitem⟩ := hc.item
  obtain ⟨target', htarget', hitem'⟩ := hcd.item
  rw [h.lookupUnder hd hr hr', htarget] at htarget'
  obtain rfl := Option.some.inj htarget'
  exact ⟨x, a, target, hx, hitem, hitem'⟩

end Numbered

/-- Corresponding items are bound to corresponding ones. -/
theorem boundFrom (hd : t.DistinctSiblings) (hr : t.Rooted) (hr' : u.Rooted) (hg : t₁.Regular) :
    ∃ τ : Equiv.Perm ItemId, (∀ x, x.index < t.size → τ x = σ x) ∧ t₁.Reordered τ u₁ := by
  obtain ⟨hsize, τ, hlt, hold, hnew⟩ := h.exists_boundNumbering ht hu hb hb'
  have hrename : ∀ c, ∀ target ∈ (t₁.item c).references,
      target.rename σ = target.rename τ := fun c target hmem => by
    cases target with
    | builtin type => rfl
    | item y =>
      obtain ⟨hy, hname⟩ := hg.references c y hmem
      exact congrArg Target.item (hold y (hb.lt_of_named hr hy (.inr hname))).symm
  refine ⟨τ, hold, .of_lt hsize hlt fun x hx => ?_⟩
  by_cases hx' : x.index < t.size
  · rw [hold x hx']
    refine ⟨?_, ?_, ?_, h.alternatives_bound ht hu hb hb' hnew hx', ?_⟩
    · rw [hb'.unlinked (h.lt hx'), hb.unlinked hx']
      exact congrArg cleared (h.item x).unlinked
    · rw [hb'.parent _ (h.lt hx'), hb.parent x hx', (h.item x).parent]
      exact Option.map_congr fun p hp => (hold p (Nat.lt_trans (hr.lt_of_parent hx' hp) hx')).symm
    · rw [h.references_bound ht hu hb hb' hd hx']
      exact List.map_congr_left (hrename x)
    · rw [hb'.children, hb.children]
      refine (h.item x).children.trans (.of_eq (List.map_congr_left fun y hy => (hold y ?_).symm))
      exact (hr.listed x y (List.mem_append_right _ hy)).1
  · obtain ⟨p, a, target, hp, hc, hd⟩ :=
      h.exists_alternative ht hu hb hb' hnew hd hr hr' (Nat.le_of_not_lt hx') hx
    have hreferences : (t₁.item x).references = [target] := congrArg Item.references hc
    have hmatches : (t₁.item x).unnoted.Matches τ (u₁.item (τ x)).unnoted := by
      rw [hc, hd, hrename x target (by rw [hreferences]; exact List.mem_singleton_self target),
        ← hold p hp]
      exact ⟨rfl, rfl, rfl, rfl, .rfl⟩
    exact ⟨hmatches.unlinked, hmatches.parent, hmatches.references, hmatches.alternatives,
      hmatches.children⟩

end Reordered

/-- Names are bound in the one tree if they are in the other. -/
theorem Reordered.bindNames (h : t.Reordered σ u) (hd : t.DistinctSiblings) (ht : t.Declared)
    (hu : u.Declared) (hok : t.bindNames = .ok t₁) :
    ∃ u₁ τ, u.bindNames = .ok u₁ ∧ (∀ x, x.index < t.size → τ x = σ x) ∧ t₁.Reordered τ u₁ := by
  have hw := ht.reachable.wellFormed
  have hr := hw.rooted
  have hr' := hu.reachable.wellFormed.rooted
  have hb := boundFrom_of_bindNames hr hok
  obtain ⟨u₁, hok'⟩ : ∃ u₁, u.bindNames = .ok u₁ := by
    refine bindNames_ok_of_meaningful hr' fun y hy => ?_
    obtain ⟨x, hx, rfl⟩ := h.surjective hy
    exact h.meaningful hd hr hr' (hb.meaningful hx)
  have hg : t₁.Regular := by
    have hrefined := refined_bindNames hw
    rw [hok] at hrefined
    exact hrefined.wellFormed.regular
  obtain ⟨τ, hτ, h₁⟩ := h.boundFrom ht hu hb (boundFrom_of_bindNames hr' hok') hd hr hr' hg
  exact ⟨u₁, τ, hok', hτ, h₁⟩

end ItemTree
end Schemata
