import Schemata.Proofs.Tree.Admitting
import Schemata.Proofs.Tree.Chains
import Schemata.Proofs.Tree.Occurrences

/-! How often things occur, from declaring to resolving.

Before an item is classified it has an arity only if it was declared with one. A
reference remembers whether it was, and takes over the arity of its target if not.
It may have done so in an earlier resolution, while the target got its own arity
only in this one; what counts is that the target was bound to get the same
(`Occurs`). So in a resolved tree every item has an arity, and a reference that
changes nothing has that of its target (`Settled`). The root cannot be declared at
all, so it never is a collection (`RootOnce`). All of this holds of the trees that
are `Produced`: of these nothing but passes has changed the arities. -/
namespace Schemata

/-! ### Items -/

namespace Item

/-- An item without a kind has no arity but its own, a reference knows whether it has one, and that
of a list allows for more than one. -/
structure Tallied (i : Item) : Prop where
  declared : i.kind = none → i.arity.isSome → i.hasExplicitArity
  refined : i.kind = some .reference →
    ∃ r, i.refinement = some r ∧ r.hadExplicitArity = i.hasExplicitArity
  lists : i.kind = some .list → i.arity.any Arity.isCollection

theorem Tallied.of_tally {i i' : Item} (h : i.Tallied) (hk : i'.kind = i.kind)
    (ht : i'.tally = i.tally) : i'.Tallied := by
  obtain ⟨harity, hexplicit, hrefinement⟩ := Item.of_tally ht
  refine ⟨?_, ?_, ?_⟩
  · rw [hk, harity, hexplicit]
    exact h.declared
  · rw [hk, hexplicit, hrefinement]
    exact h.refined
  · rw [hk, harity]
    exact h.lists

/-- Without an arity of its own, an item without a kind has none. -/
theorem Tallied.arity_eq_none {i : Item} (h : i.Tallied) (hk : i.kind = none)
    (he : i.hasExplicitArity = false) : i.arity = none := by
  by_contra hn
  have hexplicit := h.declared hk (Option.isSome_iff_ne_none.2 hn)
  rw [he] at hexplicit
  cases hexplicit

theorem Declared.explicit {i : Item} (h : i.Declared) : i.arity.isSome → i.hasExplicitArity := by
  induction h with
  | object | declaration | variant | extension => exact fun ha => by cases ha
  | withArity => exact fun _ => rfl
  | withBase _ _ ih => exact ih
  | withMetadata _ _ _ ih => exact ih
  | withRole _ _ ih => exact ih
  | external _ ih => exact ih
  | placedAt _ _ ih => exact ih

theorem Declared.tallied {i : Item} (h : i.Declared) (x : ItemId) (p : Option ItemId) :
    Tallied { i with id := x, parent := p } := by
  have hnone : ∀ k, ({ i with id := x, parent := p } : Item).kind ≠ some k := fun k hk => by
    rw [show ({ i with id := x, parent := p } : Item).kind = none from h.fresh.kind] at hk
    cases hk
  exact ⟨fun _ => h.explicit, fun hk => absurd hk (hnone _), fun hk => absurd hk (hnone _)⟩

end Item

namespace ItemTree

open Search

variable {t t' t₀ : ItemTree} {plugin : Plugin} {options : Options} {id x y : ItemId} {a : Arity}

/-! ### Trees -/

/-- A classified item has this arity, or will have it once arities are settled. -/
inductive Occurs (t : ItemTree) : ItemId → Arity → Prop
  | known {x : ItemId} {a : Arity} {k : Kind} (hk : (t.item x).kind = some k)
    (ha : (t.item x).arity = some a) : t.Occurs x a
  | behind {x y : ItemId} {a : Arity} (hn : (t.item x).arity = none) (hxy : t.Refers x y)
    (hy : t.Occurs y a) : t.Occurs x a
  | once {x : ItemId} {k : Kind} (hk : (t.item x).kind = some k) (hne : k ≠ .reference)
    (hn : (t.item x).arity = none) : t.Occurs x .one

/-- What is known of arities at all times. -/
structure Tallied (t : ItemTree) : Prop where
  items : ∀ x, (t.item x).Tallied
  inherited : ∀ x y a, t.Refers x y → (t.item x).hasExplicitArity = false →
    (t.item x).arity = some a → t.Occurs y a

/-- Classified items keep what their arities are told from. -/
def Carries (t t' : ItemTree) : Prop :=
  ∀ x k, (t.item x).kind = some k → (t'.item x).kind = some k ∧
    (t'.item x).target? = (t.item x).target? ∧ (t'.item x).tally = (t.item x).tally

theorem Occurs.carried (h : t.Occurs x a) (hc : t.Carries t') : t'.Occurs x a := by
  induction h with
  | @known x a k hk ha =>
    obtain ⟨hk', _, htally⟩ := hc x k hk
    exact .known hk' ((Item.of_tally htally).1.trans ha)
  | @behind x y a hn hxy _ ih =>
    obtain ⟨hk', htarget, htally⟩ := hc x _ hxy.1
    exact .behind ((Item.of_tally htally).1.trans hn) ⟨hk', htarget.trans hxy.2⟩ ih
  | @once x k hk hne hn =>
    obtain ⟨hk', _, htally⟩ := hc x k hk
    exact .once hk' hne ((Item.of_tally htally).1.trans hn)

/-- A step that leaves classified items alone has only to say what becomes of the others: those that
get a kind have no arity but their own. -/
theorem Tallied.carried (h : t.Tallied) (hc : t.Carries t')
    (hnew : ∀ x, (t.item x).kind = none → (t'.item x).Tallied ∧ ((t'.item x).kind ≠ none →
      (t'.item x).hasExplicitArity = false → (t'.item x).arity = none)) : t'.Tallied where
  items x := by
    cases hk : (t.item x).kind with
    | none => exact (hnew x hk).1
    | some k =>
      obtain ⟨hk', _, htally⟩ := hc x k hk
      exact (h.items x).of_tally (hk'.trans hk.symm) htally
  inherited x y a hxy he ha := by
    cases hk : (t.item x).kind with
    | none =>
      rw [(hnew x hk).2 (by rw [hxy.1]; simp) he] at ha
      cases ha
    | some k =>
      obtain ⟨hk', htarget, htally⟩ := hc x k hk
      obtain ⟨harity, hexplicit, _⟩ := Item.of_tally htally
      have hold : t.Refers x y := ⟨hk.trans (hk'.symm.trans hxy.1), htarget.symm.trans hxy.2⟩
      exact (h.inherited x y a hold (hexplicit.symm.trans he) (harity.symm.trans ha)).carried hc

theorem Tallied.talliesWith (h : t.Tallied) (ht : t.TalliesWith t') : t'.Tallied := by
  refine h.carried (fun x k hk => ⟨(ht.field Item.kind (fun _ => rfl) x).trans hk,
    ht.field Item.target? (fun _ => rfl) x, ht.tally x⟩) fun x hk => ?_
  have hk' := ht.field Item.kind (fun _ => rfl) x
  exact ⟨(h.items x).of_tally hk' (ht.tally x), fun hn => absurd (hk'.trans hk) hn⟩

/-! ### Declaring -/

theorem tallied_ofSource (source : String) : (ofSource source).Tallied := by
  have hitem : ∀ x, ((ofSource source).item x).kind = none ∧
      ((ofSource source).item x).arity = none := fun x => by
      by_cases hx : x.index < (ofSource source).size
      · obtain ⟨i⟩ := x
        obtain rfl : i = 0 := Nat.lt_one_iff.1 hx
        exact ⟨rfl, rfl⟩
      · rw [item_of_size_le (Nat.le_of_not_lt hx)]
        exact ⟨rfl, rfl⟩
  refine ⟨fun x => ⟨fun _ ha => ?_, fun hk => ?_, fun hk => ?_⟩, fun x y a hxy => ?_⟩
  · rw [(hitem x).2] at ha
    cases ha
  · rw [(hitem x).1] at hk
    cases hk
  · rw [(hitem x).1] at hk
    cases hk
  · have hk := hxy.1
    rw [(hitem x).1] at hk
    cases hk

theorem Tallied.push (h : t.Tallied) {p : ItemId} (hp : p.index < t.size) {i : Item}
    (hi : i.Declared) : (t.push p i).Tallied := by
  refine h.carried (fun x k hk => ?_) fun x hk => ?_
  · rw [item_push_old hp (ne_nextId (lt_size_of_kind hk))]
    exact ⟨hk, rfl, rfl⟩
  · by_cases hx : x = t.nextId
    · rw [hx, item_push_nextId hp]
      exact ⟨hi.tallied _ _, fun hn => absurd hi.fresh.kind hn⟩
    · have hold := item_push_old hp (i := i) hx
      rw [hold]
      exact ⟨(h.items x).of_tally rfl rfl, fun hn => absurd hk hn⟩

/-! ### Binding -/

theorem Binding.tallied (hb : Binding t₀ id t) (h₀ : t₀.WellFormed)
    (hraw : (t₀.item id).rawReferences ≠ []) (h : t₀.Tallied) : t.Tallied := by
  refine h.carried (fun x k hk => ?_) fun x hk => ?_
  · have hne : x ≠ id := by
      rintro rfl
      rw [kind_of_unbound h₀ hraw] at hk
      cases hk
    have hx := hb.others x hne (lt_size_of_kind hk)
    exact ⟨(congrArg Item.kind hx).trans hk, (congrArg Item.target? hx :), hb.tally x⟩
  · have hk' := hb.kind h₀ hraw x
    exact ⟨(h.items x).of_tally hk' (hb.tally x), fun hn => absurd (hk'.trans hk) hn⟩

/-! ### Classifying -/

theorem Classifies.tallied (hc : t.Classifies id t') (hid : id.index < t.size) (h : t.Tallied) :
    t'.Tallied := by
  have hne : (t.item id).kind = none → ∀ x k, (t.item x).kind = some k → x ≠ id := by
    rintro hk x k hx rfl
    rw [hk] at hx
    cases hx
  cases hc with
  | known _ he => exact he ▸ h
  | kind hk k t₁ ha _ _ _ he =>
    have hid₁ : id.index < t₁.size := ha.size.symm ▸ hid
    have hother : ∀ x, x ≠ id → t'.item x = t₁.item x := fun x hx => by
      rw [he, setKind_eq, item_modify_of_ne t₁ hx]
    have hself : t'.item id = withKind k (t₁.item id) := by
      rw [he, setKind_eq, item_modify_self t₁ hid₁]
    refine h.carried (fun x k' hx => ?_) fun x hx => ?_
    · rw [hother x (hne hk x k' hx)]
      exact ⟨(ha.field Item.kind (fun _ => rfl) x).trans hx, ha.field Item.target? (fun _ => rfl) x,
        ha.others x (hne hk x k' hx)⟩
    · by_cases hxi : x = id
      · rw [hxi, hself]
        refine ⟨⟨nofun, fun hr => ?_, fun hl => ?_⟩, fun _ hexplicit => ?_⟩
        · obtain ⟨r, hrefinement, hr⟩ := ha.refined (Option.some.inj hr)
          exact ⟨r, hrefinement, hr.trans ha.explicit.symm⟩
        · rw [show (withKind k (t₁.item id)).arity = _ from ha.arity]
          exact ha.lists (Option.some.inj hl)
        · exact ha.arity.trans ((h.items id).arity_eq_none hk (ha.explicit.symm.trans hexplicit))
      · rw [hother x hxi]
        have hk' := ha.field Item.kind (fun _ => rfl) x
        exact ⟨(h.items x).of_tally hk' (ha.others x hxi), fun hn => absurd (hk'.trans hx) hn⟩
  | split hk hform type _ he =>
    rw [he]
    refine h.carried (fun x k hx => ?_) fun x hx => ?_
    · rw [item_splitSimple_other hid (hne hk x k hx) (ne_nextId (lt_size_of_kind hx))]
      exact ⟨hx, rfl, rfl⟩
    · by_cases hxi : x = id
      · have htally : ∀ i, (withKind .simple (withFirstChild t.nextId
            (withoutFundamental type i))).tally = i.tally := fun _ => rfl
        obtain ⟨harity, hexplicit, _⟩ := Item.of_tally (htally (t.item id))
        rw [hxi, item_splitSimple_self hid]
        exact ⟨⟨nofun, nofun, nofun⟩,
          fun _ he => harity.trans ((h.items id).arity_eq_none hk (hexplicit.symm.trans he))⟩
      · by_cases hxn : x = t.nextId
        · rw [hxn, item_splitSimple_nextId hid]
          exact ⟨⟨nofun, nofun, nofun⟩, fun _ _ => rfl⟩
        · rw [item_splitSimple_other hid hxi hxn]
          exact ⟨h.items x, fun hn => absurd hx hn⟩

/-! ### Settling -/

theorem arityStep_of_refers (hn : (t.item x).arity = none) (hxy : t.Refers x y) :
    t.arityStep x = .go y := by
  unfold arityStep
  dsimp only
  rw [hn, hxy.1, hxy.2]

theorem arityStep_of_ne (hn : (t.item x).arity = none) (hk : (t.item x).kind ≠ some .reference) :
    t.arityStep x = .halt .one := by
  unfold arityStep
  dsimp only
  rw [hn]
  split
  · next he => cases he
  · next hr _ => exact absurd hr hk
  · rfl

theorem Occurs.ends (h : t.Occurs x a) : Ends t.arityStep x a := by
  induction h with
  | known _ ha => exact .halt (arityStep_of_known ha)
  | behind hn hxy _ ih => exact .go (arityStep_of_refers hn hxy) ih
  | once hk hne hn =>
    exact .halt (arityStep_of_ne hn fun hr => hne (Option.some.inj (hk.symm.trans hr)))

/-- In a classified tree, an item will have the arity at the end of its chain. -/
theorem Classified.occurs_of_ends (hall : t.Classified) (h : t.Regular) (hx : x.index < t.size)
    (hend : Ends t.arityStep x a) : t.Occurs x a := by
  induction hend with
  | @halt x a hstep =>
    obtain ⟨k, hk⟩ := hall x hx
    cases ha : (t.item x).arity with
    | some b =>
      rw [arityStep_of_known ha] at hstep
      cases hstep
      exact .known hk ha
    | none =>
      by_cases hr : (t.item x).kind = some .reference
      · obtain ⟨y, hxy⟩ := h.refers hr
        rw [arityStep_of_refers ha hxy] at hstep
        cases hstep
      · rw [arityStep_of_ne ha hr] at hstep
        cases hstep
        exact .once hk (fun he => hr (he ▸ hk)) ha
  | @go x y a hstep _ ih =>
    cases ha : (t.item x).arity with
    | some b =>
      rw [arityStep_of_known ha] at hstep
      cases hstep
    | none =>
      by_cases hr : (t.item x).kind = some .reference
      · obtain ⟨z, hxz⟩ := h.refers hr
        rw [arityStep_of_refers ha hxz] at hstep
        cases hstep
        exact .behind ha hxz (ih (h.lt_of_refers hxz))
      · rw [arityStep_of_ne ha hr] at hstep
        cases hstep

section Settling

variable (hall : t.Classified) (hid : id.index < t.size) (hend : Ends t.arityStep id a)
include hall hid hend

/-- An item gets what it was bound to get, so nothing is bound to get anything else. -/
theorem Occurs.settled {b : Arity} (h : t.Occurs x b) :
    (t.modify id (settledAt a)).Occurs x b := by
  have hkind : ∀ x, ((t.modify id (settledAt a)).item x).kind = (t.item x).kind :=
    field_modify Item.kind fun _ => rfl
  have htarget : ∀ x, ((t.modify id (settledAt a)).item x).target? = (t.item x).target? :=
    field_modify Item.target? fun _ => rfl
  have hother : ∀ x, x ≠ id → ((t.modify id (settledAt a)).item x).arity = (t.item x).arity :=
    fun x hx => by rw [item_modify_of_ne t hx]
  have hself : ∀ b, t.Occurs id b → (t.modify id (settledAt a)).Occurs id b := fun b hb => by
    obtain ⟨k, hk⟩ := hall id hid
    obtain rfl := hb.ends.unique hend
    exact .known ((hkind id).trans hk) (by rw [item_modify_self t hid]; rfl)
  induction h with
  | @known x b k hk hb =>
    by_cases hx : x = id
    · exact hx ▸ hself b (hx ▸ .known hk hb)
    · exact .known ((hkind x).trans hk) ((hother x hx).trans hb)
  | @behind x y b hn hxy hy ih =>
    by_cases hx : x = id
    · exact hx ▸ hself b (hx ▸ .behind hn hxy hy)
    · exact .behind ((hother x hx).trans hn)
        ⟨(hkind x).trans hxy.1, (htarget x).trans hxy.2⟩ ih
  | @once x k hk hne hn =>
    by_cases hx : x = id
    · exact hx ▸ hself .one (hx ▸ .once hk hne hn)
    · exact .once ((hkind x).trans hk) hne ((hother x hx).trans hn)

theorem Tallied.settled (h : t.Tallied) (hr : t.Regular) :
    (t.modify id (settledAt a)).Tallied := by
  have hkind : ∀ x, ((t.modify id (settledAt a)).item x).kind = (t.item x).kind :=
    field_modify Item.kind fun _ => rfl
  have htarget : ∀ x, ((t.modify id (settledAt a)).item x).target? = (t.item x).target? :=
    field_modify Item.target? fun _ => rfl
  refine ⟨fun x => ?_, fun x y b hxy he hb => ?_⟩
  · by_cases hx : x = id
    · obtain ⟨k, hk⟩ := hall id hid
      rw [hx, item_modify_self t hid]
      refine ⟨fun hn => ?_, (h.items id).refined, fun hl => ?_⟩
      · rw [show (settledAt a (t.item id)).kind = some k from hk] at hn
        cases hn
      · -- a list has its arity already
        obtain ⟨b, hb, hcollection⟩ := (Option.any_eq_true _ _).1 ((h.items id).lists hl)
        obtain rfl := hend.unique (.halt (arityStep_of_known hb))
        exact hcollection
    · rw [item_modify_of_ne t hx]
      exact h.items x
  · refine Occurs.settled hall hid hend ?_
    have hold : t.Refers x y := ⟨(hkind x).symm.trans hxy.1, (htarget x).symm.trans hxy.2⟩
    by_cases hx : x = id
    · rw [hx, item_modify_self t hid] at he hb
      rw [hx] at hold
      obtain rfl := Option.some.inj hb
      cases ha : (t.item id).arity with
      | some b =>
        obtain rfl := hend.unique (.halt (arityStep_of_known ha))
        exact h.inherited id y a hold he ha
      | none =>
        exact hall.occurs_of_ends hr (hr.lt_of_refers hold)
          ((ends_iff_of_go (arityStep_of_refers ha hold)).1 hend)
    · rw [item_modify_of_ne t hx] at he hb
      exact h.inherited x y b hold he hb

end Settling

/-! ### Marking -/

/-- Marking a reference looks at nothing but its refinement, and no other item changes. -/
theorem markAlias_ok (hid : id.index < t.size) (hok : t.markAlias id = .ok t') :
    (∀ x, x ≠ id → t'.item x = t.item x) ∧ ∀ r, (t.item id).kind = some .reference →
      (t.item id).refinement = some r → (t'.item id).isAugmenting = false →
      r.hadExplicitArity = false := by
  unfold markAlias at hok
  dsimp only at hok
  split at hok
  · next r₀ hk hr₀ =>
    split at hok
    · next augmenting haugmenting =>
      cases hok
      refine ⟨fun x hx => item_modify_of_ne t hx _, fun r _ hr hn => ?_⟩
      rw [hr₀] at hr
      cases hr
      rw [item_modify_self t hid] at hn
      by_contra hhad
      rw [Bool.not_eq_false] at hhad
      unfold isAugmenting at haugmenting
      rw [if_pos hhad] at haugmenting
      cases haugmenting
      cases hn
    · cases hok
  · next hother =>
    cases hok
    exact ⟨fun x _ => rfl, fun r hk hr _ => absurd hr (hother r hk)⟩

/-- A reference that was written with an arity is no mere alias. -/
theorem explicit_markAliases (h : t.WellFormed) (ht : ∀ x, (t.item x).Tallied)
    (hok : t.markAliases = .ok t') (hk : (t'.item x).kind = some .reference)
    (hn : (t'.item x).isAugmenting = false) : (t'.item x).hasExplicitArity = false := by
  suffices hall : t.TalliesWith t' ∧ ∀ x ∈ t.walk, (t.item x).kind = some .reference →
      (t'.item x).isAugmenting = false → (t.item x).hasExplicitArity = false by
    obtain ⟨htallies, hall⟩ := hall
    rw [htallies.hasExplicitArity x]
    have hk' := (htallies.field Item.kind (fun _ => rfl) x).symm.trans hk
    exact hall x (h.rooted.mem_walk_iff.2 (lt_size_of_kind hk')) hk' hn
  refine foldlM_ok (fun done t' => t.TalliesWith t' ∧ ∀ x ∈ done,
    (t.item x).kind = some .reference → (t'.item x).isAugmenting = false →
      (t.item x).hasExplicitArity = false) hok
    ⟨.refl t, by simp⟩ fun done id rest t₁ t₂ hwalk ⟨htallies, hdone⟩ hstep => ?_
  have hmark := talliesWith_markAlias t₁ id
  rw [hstep] at hmark
  have hid : id.index < t₁.size :=
    htallies.size.symm ▸ h.rooted.mem_walk_iff.1 (by rw [hwalk]; simp)
  obtain ⟨hother, hself⟩ := markAlias_ok hid hstep
  refine ⟨htallies.trans hmark, fun x hx hk hn => ?_⟩
  by_cases hxi : x = id
  · subst hxi
    obtain ⟨r, hr, hexplicit⟩ := (ht x).refined hk
    exact hexplicit.symm.trans (hself r ((htallies.field Item.kind (fun _ => rfl) x).trans hk)
      ((htallies.refinement x).trans hr) hn)
  · rw [hother x hxi] at hn
    rcases List.mem_append.1 hx with hx | hx
    · exact hdone x hx hk hn
    · exact absurd (List.mem_singleton.1 hx) hxi

/-! ### Resolving -/

theorem arityInvariant_tallied : ArityInvariant Tallied where
  source := tallied_ofSource
  push _ hp hi h := h.push hp hi
  binding h₀ hraw hb h := hb.tallied h₀ hraw h
  classifies _ _ hid hc h := hc.tallied hid h
  settled ht hall hid hend h := h.settled hall hid hend ht.regular
  tallies ht h := h.talliesWith ht

/-- Every item has an arity, and a mere alias has that of its target. -/
structure Settled (t : ItemTree) : Prop where
  arities : ∀ x, x.index < t.size → ∃ a, (t.item x).arity = some a
  aliases : ∀ x y, t.Refers x y → (t.item x).isAugmenting = false →
    (t.item y).arity = (t.item x).arity

theorem settled_resolve (h : t.WellFormed) (ht : t.Tallied)
    (hok : t.resolve plugin options = .ok t') : t'.Settled := by
  obtain ⟨t₁, t₂, t₃, t₄, hs⟩ := stages_of_resolve h hok
  have htallied : t'.Tallied := by
    have hleft := arityInvariant_tallied.resolve h ht plugin options
    rwa [hok] at hleft
  have htallies := hs.tallies_described.trans hs.tallies_marked
  have hsettled := settledFrom_of_settleArities hs.refined_classified.wellFormed.rooted hs.settled
  have harities : ∀ x, x.index < t'.size → ∃ a, (t'.item x).arity = some a := fun x hx => by
    obtain ⟨a, _, he⟩ := hsettled.item x (hs.alike.size ▸ hx)
    rw [htallies.arity x, he]
    exact ⟨a, rfl⟩
  refine ⟨harities, fun x y hxy hn => ?_⟩
  have hw₄ := hs.refined_classified.wellFormed.alike
    (hs.alike_settled.trans hs.tallies_described.toAlike)
  have hitems : ∀ z, (t₄.item z).Tallied := fun z => (htallied.items z).of_tally
    (hs.tallies_marked.field Item.kind (fun _ => rfl) z).symm (hs.tallies_marked.tally z).symm
  have hexplicit := explicit_markAliases hw₄ hitems hs.marked hxy.1 hn
  have hregular := hs.refined.wellFormed.regular
  obtain ⟨a, ha⟩ := harities x (lt_size_of_kind hxy.1)
  obtain ⟨b, hb⟩ := harities y (hregular.lt_of_refers hxy)
  -- the target has its arity by now
  have harity : (t'.item y).arity = some a := by
    cases htallied.inherited x y a hxy hexplicit ha with
    | known _ hy => exact hy
    | behind hnone _ _ => cases hb.symm.trans hnone
    | once _ _ hnone => cases hb.symm.trans hnone
  rw [harity, ha]

theorem Settled.retyped (h : t.Settled) (hr : t.Retyped t') : t'.Settled where
  arities x hx := by
    rw [hr.field Item.arity fun _ _ _ => rfl]
    exact h.arities x (hr.size ▸ hx)
  aliases x y hxy hn := by
    rw [hr.field Item.isAugmenting fun _ _ _ => rfl] at hn
    rw [hr.field Item.arity fun _ _ _ => rfl, hr.field Item.arity fun _ _ _ => rfl]
    exact h.aliases x y ⟨(hr.field Item.kind (fun _ _ _ => rfl) x).symm.trans hxy.1,
      (hr.field Item.target? (fun _ _ _ => rfl) x).symm.trans hxy.2⟩ hn

/-! ### The root -/

/-- The root occurs once, if it is known how often it does. -/
def RootOnce (t : ItemTree) : Prop := ∀ a, (t.item root).arity = some a → a = .one

theorem RootOnce.of_arity (h : t.RootOnce) (he : (t'.item root).arity = (t.item root).arity) :
    t'.RootOnce := fun a ha => h a (he ▸ ha)

/-- No item that there is gets an arity while one is classified. -/
theorem Classifies.arity (hc : t.Classifies id t') (hid : id.index < t.size)
    (hx : x.index < t.size) : (t'.item x).arity = (t.item x).arity := by
  cases hc with
  | known _ he => rw [he]
  | kind _ k t₁ ha _ _ _ he =>
    have hset : ∀ x, ((t₁.modify id (withKind k)).item x).arity = (t₁.item x).arity :=
      field_modify Item.arity fun _ => rfl
    rw [he, setKind_eq, hset]
    by_cases hxi : x = id
    · rw [hxi, ha.arity]
    · exact (Item.of_tally (ha.others x hxi)).1
  | split _ _ type _ he =>
    rw [he]
    exact field_splitSimple hid Item.arity (fun _ => rfl) (ne_nextId hx)

/-- The root is an object, so it has its arity from nothing else. -/
theorem RootOnce.settled (h : t.WellFormed) (ho : t.RootOnce) (hend : Ends t.arityStep id a) :
    (t.modify id (settledAt a)).RootOnce := by
  have hroot : root.index < t.size := h.rooted.size
  by_cases hid : root = id
  · subst hid
    intro b hb
    rw [item_modify_self t hroot] at hb
    cases hb
    cases harity : (t.item root).arity with
    | some b =>
      obtain rfl := hend.unique (.halt (arityStep_of_known harity))
      exact ho a harity
    | none =>
      refine hend.unique (.halt (arityStep_of_ne harity fun hk => ?_))
      have hform := ((h.regular.items root).suits _ hk).1
      rw [h.rooted.rootForm] at hform
      cases hform
  · exact ho.of_arity (by rw [item_modify_of_ne t hid])

theorem arityInvariant_rootOnce : ArityInvariant RootOnce where
  source _ _ ha := by cases ha
  push h hp _ ho := by
    have hne : root ≠ _ := ne_nextId h.rooted.size
    exact ho.of_arity (by rw [item_push_old hp hne])
  binding _ _ hb ho := ho.of_arity (Item.of_tally (hb.tally root)).1
  classifies h _ hid hc ho := ho.of_arity (hc.arity hid h.rooted.size)
  settled h _ _ hend ho := ho.settled h hend
  tallies ht ho := ho.of_arity (ht.arity root)

/-! ### Produced trees -/

/-- What declaring, resolving and admitting make of the tree of an empty source text, in any order
and however often. No clones of items are pushed. -/
inductive Produced : ItemTree → Prop
  | source (source : String) : Produced (ofSource source)
  | push {t : ItemTree} (h : t.Produced) {p : ItemId} (hp : p.index < t.size) {i : Item}
    (hi : i.Declared) : Produced (t.push p i)
  /-- A resolution changes a tree whether it succeeds or not. -/
  | resolve {t : ItemTree} (h : t.Produced) (plugin : Plugin) (options : Options) :
    Produced (leftBy (t.resolve plugin options))
  /-- So does an admission. -/
  | retyped {t t' : ItemTree} (h : t.Produced) (hr : t.Retyped t') : Produced t'

theorem Produced.reachable (h : t.Produced) : t.Reachable := by
  induction h with
  | source source => exact .source source
  | push _ hp hi ih => exact ih.push hp hi
  | resolve _ plugin options ih => exact ih.resolve plugin options
  | retyped _ hr ih => exact ih.alike hr.alike

theorem ArityInvariant.of_produced {I : ItemTree → Prop} (hI : ArityInvariant I)
    (h : t.Produced) : I t := by
  induction h with
  | source source => exact hI.source source
  | push h hp hi ih => exact hI.push h.reachable.wellFormed hp hi ih
  | resolve h plugin options ih => exact hI.resolve h.reachable.wellFormed ih plugin options
  | retyped _ hr ih => exact hI.tallies hr.talliesWith ih

theorem Produced.tallied (h : t.Produced) : t.Tallied := arityInvariant_tallied.of_produced h

/-- No arity can be given to the root. -/
theorem Produced.rootOnce (h : t.Produced) : t.RootOnce := arityInvariant_rootOnce.of_produced h

/-- In a tree that is built, lists allow for more than one. -/
theorem Produced.lists (h : t.Produced) {c : Compiled}
    (hok : t.compileTree plugin options = .ok (t', c)) (hk : (t'.item x).kind = some .list) :
    (t'.item x).arity.any Arity.isCollection := by
  obtain ⟨r, hr, ha, _⟩ := compileTree_stages hok
  have htallied := (h.resolve plugin options).tallied
  rw [hr] at htallied
  exact ((htallied.talliesWith (retyped_admitAll ha).talliesWith).items x).lists hk

/-- A tree that is built is settled. -/
theorem Produced.settled (h : t.Produced) {c : Compiled}
    (hok : t.compileTree plugin options = .ok (t', c)) : t'.Settled := by
  obtain ⟨r, hr, ha, _⟩ := compileTree_stages hok
  exact (settled_resolve h.reachable.wellFormed h.tallied hr).retyped (retyped_admitAll ha)

end ItemTree
end Schemata
