import Schemata.Proofs.Draft.Build
import Schemata.Proofs.Draft.Wanted

/-! The fundamental type that an item wraps, and the scalar that its value comes to.

The type is found along references and the sources of simple objects, whatever is
passed on the way. Where the value of a simple object is found follows from the
kind of its source alone, so that some ways to a fundamental type are no ways to a
value: the value of an object that wraps a fundamental type comes to a scalar
exactly if the object is `PlainlyValued`. -/
namespace Schemata

open Search

namespace ItemTree

variable {t : ItemTree} {item s last x : ItemId} {type : Fundamental} {r : Option Fundamental}

/-! ### The way to a fundamental type -/

theorem fundamentalStep_of_fundamental (hk : (t.item x).kind = some .fundamental) :
    t.fundamentalStep x = .halt (Blueprint.namedFundamental (t.item x)) := by
  unfold fundamentalStep Blueprint.namedFundamental
  rw [hk]
  dsimp only
  cases (t.item x).target? with
  | none => rfl
  | some target => cases target <;> rfl

/-- What wraps a fundamental type is one, refers to something or is a simple object. -/
theorem kind_of_ends (h : Ends t.fundamentalStep x (some type)) :
    (t.item x).kind = some .fundamental ∨ (t.item x).kind = some .reference ∨
      (t.item x).kind = some .simple := by
  by_contra hn
  rw [not_or, not_or] at hn
  have hstep : t.fundamentalStep x = .halt none := by
    unfold fundamentalStep
    split
    · next hk => exact absurd hk hn.1
    · next hk => exact absurd hk hn.2.1
    · next hk => exact absurd hk hn.2.2
    · rfl
  cases h.unique (.halt hstep)

theorem fundamentalStep_of_synthetic (hk : (t.item x).kind = some .simple)
    (hs : t.syntheticChild x = some s) : t.fundamentalStep x = .go s := by
  unfold fundamentalStep
  rw [hk, hs]
  rfl

theorem fundamentalStep_of_source (hk : (t.item x).kind = some .simple)
    (hn : t.syntheticChild x = none) (hs : (t.simpleSources x).head? = some s) :
    t.fundamentalStep x = .go s := by
  unfold fundamentalStep
  rw [hk, hn, hs]
  rfl

/-- An item and the end of its chain of references wrap the same. -/
theorem Regular.ends_fundamental_iff (h : t.Regular) (hx : Ends t.referenceStep x (.item last)) :
    Ends t.fundamentalStep x r ↔ Ends t.fundamentalStep last r := by
  generalize hend : Target.item last = target at hx
  induction hx with
  | @halt x target hstep =>
    subst hend
    by_cases hk : (t.item x).kind = some .reference
    · obtain ⟨y, _, hgo⟩ := h.reference hk
      rw [hgo] at hstep
      cases hstep
    · rw [referenceStep_of_ne hk] at hstep
      cases hstep
      exact Iff.rfl
  | @go x y target hstep _ ih =>
    have hgo : t.fundamentalStep x = .go y := by
      unfold fundamentalStep
      rw [kind_of_follows hstep, target?_of_references (h.references_of_follows hstep)]
    exact (ends_iff_of_go hgo).trans (ih hend)

/-! ### The way to a value -/

/-- The value of a simple object is where its fundamental type is: in its own synthetic child, in
its source if that is a simple object of which this holds, or at the end of the references from its
source if that names a fundamental type. -/
inductive PlainlyValued (t : ItemTree) : ItemId → Prop
  | own {item : ItemId} (hs : (t.syntheticChild item).isSome) : t.PlainlyValued item
  | simple {item s : ItemId} (hn : t.syntheticChild item = none)
    (hs : (t.simpleSources item).head? = some s) (hk : (t.item s).kind = some .simple)
    (h : t.PlainlyValued s) : t.PlainlyValued item
  | scalar {item s last : ItemId} (hn : t.syntheticChild item = none)
    (hs : (t.simpleSources item).head? = some s) (hend : t.chainEnd s = .ok (.item last))
    (hk : (t.item last).kind = some .fundamental) : t.PlainlyValued item

/-- What is plainly valued wraps a fundamental type. -/
theorem PlainlyValued.fundamentalOf (h : t.PlainlyValued item) (ht : t.Regular)
    (hk : (t.item item).kind = some .simple) : ∃ type, t.fundamentalOf item = some type := by
  suffices hends : ∃ type, Ends t.fundamentalStep item (some type) by
    obtain ⟨type, hends⟩ := hends
    exact ⟨type, fundamentalOf_eq_some_iff.2 hends⟩
  have hfundamental : ∀ x, (t.item x).kind = some .fundamental →
      ∃ type, Ends t.fundamentalStep x (some type) := fun x hx => by
    obtain ⟨type, htype⟩ := Blueprint.namedFundamental_of_kind ht hx
    refine ⟨type, .halt ?_⟩
    rw [fundamentalStep_of_fundamental hx]
    exact congrArg Step.halt htype
  induction h with
  | own hs =>
    obtain ⟨child, hchild⟩ := Option.isSome_iff_exists.1 hs
    have hkind := ((ht.items child).synthetic (mem_of_syntheticChild hchild).2).2
    obtain ⟨type, htype⟩ := hfundamental child hkind
    exact ⟨type, .go (fundamentalStep_of_synthetic hk hchild) htype⟩
  | simple hn hs hks _ ih =>
    obtain ⟨type, htype⟩ := ih hks
    exact ⟨type, .go (fundamentalStep_of_source hk hn hs) htype⟩
  | scalar hn hs hend hkl =>
    obtain ⟨type, htype⟩ := hfundamental _ hkl
    exact ⟨type, .go (fundamentalStep_of_source hk hn hs)
      ((ht.ends_fundamental_iff (chainEnd_eq_ok_iff.1 hend)).2 htype)⟩

end ItemTree

/-! ### The scalars that places come to -/

namespace Blueprint

open Draft ItemTree

variable {b : Blueprint} {P : ItemId → Prop} {root : ElementId} {d : Draft}
  {item x last : ItemId} {place : TypeInfoId} {type : Fundamental} {r : Option Fundamental}

/-- Every place belongs to an item that has an element. -/
structure Held (d : Draft) : Prop where
  places : ∀ item place, d.places.find? item = some place → ∃ id, d.idOf? item = some id
  valuePlaces : ∀ item place, d.valuePlaces.find? item = some place → ∃ id, d.idOf? item = some id

theorem Assembled.typed (h : b.Assembled P root d) (hh : Held d)
    (hp : d.places.find? item = some place) :
    ∃ info, d.typeInfos.get? place = some info ∧ b.Typed d item info := by
  have hi := h.sound.indexed
  obtain ⟨id, hid⟩ := hh.places item place hp
  have hlt := hi.lt_of_idOf? hid
  obtain ⟨info, hget, hs⟩ := (h.described hlt).shaped
  have hplace := hi.place id hlt
  rw [hi.itemOf_of_idOf? hid] at hs hplace
  rw [hp] at hplace
  exact ⟨info, Option.some.inj hplace ▸ hget, hs.typed⟩

theorem Assembled.valued (h : b.Assembled P root d) (hh : Held d)
    (hp : d.valuePlaces.find? item = some place) : b.Valued [] d item place := by
  have hi := h.sound.indexed
  obtain ⟨id, hid⟩ := hh.valuePlaces item place hp
  obtain ⟨info, _, hs⟩ := (h.described (hi.lt_of_idOf? hid)).shaped
  rw [hi.itemOf_of_idOf? hid] at hs
  obtain ⟨place', hp', hvalued⟩ := hs.valued (h.sound.valuePlaces item place hp)
  rw [hp] at hp'
  cases hp'
  exact hvalued

/-- All places along a chain of references come to the same as the place of its end. A reference
that narrows a fundamental type has the scalar itself; every other one leads to what stands for its
target, which is further along. -/
theorem Assembled.ends_of_chain (h : b.Assembled P root d) (hh : Held d) (ht : b.tree.Resolved)
    (hx : Ends b.tree.referenceStep x (.item last))
    (hlast : ∀ place, d.places.find? last = some place → Ends d.scalarStep place r)
    (hnarrowed : (b.tree.item last).kind = some .fundamental →
      r = namedFundamental (b.tree.item last)) :
    ∀ z, Relation.ReflTransGen (Follows b.tree.referenceStep) x z →
      ∀ place, d.places.find? z = some place → Ends d.scalarStep place r := by
  have hr := ht.wellFormed.regular
  generalize hend : Target.item last = target at hx
  induction hx with
  | @halt x target hstep =>
    subst hend
    have hk : (b.tree.item x).kind ≠ some .reference := fun hk => by
      obtain ⟨y, _, hgo⟩ := hr.reference hk
      rw [hgo] at hstep
      cases hstep
    rw [referenceStep_of_ne hk] at hstep
    cases hstep
    intro z hxz
    rcases Relation.ReflTransGen.cases_head hxz with rfl | ⟨y, hxy, _⟩
    · exact hlast
    · exact absurd (kind_of_follows hxy) hk
  | @go x y target hstep hy ih =>
    intro z hxz place hp
    rcases Relation.ReflTransGen.cases_head hxz with rfl | ⟨y', hxy, hyz⟩
    · obtain ⟨info, hget, htyped⟩ := h.typed hh hp
      unfold Typed at htyped
      rw [kind_of_follows hstep] at htyped
      obtain ⟨shape, rfl, hshape⟩ := htyped
      cases hn : b.narrowed? x with
      | some type =>
        rw [hn] at hshape
        subst hshape
        have hchain := chainEnd_eq_ok_iff.2 (Ends.go hstep hy)
        unfold narrowed? at hn
        rw [hchain, ← hend] at hn
        dsimp only at hn
        split at hn
        · next hk =>
          refine .halt ?_
          unfold scalarStep
          rw [hget, hnarrowed hk.1, hn]
        · cases hn
      | none =>
        rw [hn] at hshape
        obtain ⟨target', q, htarget, hq, rfl⟩ := hshape
        rw [target?_of_references (hr.references_of_follows hstep)] at htarget
        cases htarget
        refine .go (y := q) ?_ (ih hend _ (follows_standIn ht y).1 q hq)
        unfold scalarStep
        rw [hget]
    · rw [Follows, hstep] at hxy
      cases hxy
      exact ih hend z hyz place hp

/-- A value that is taken over leads to that of its source. -/
theorem Assembled.scalarStep_of_source (h : b.Assembled P root d) (hh : Held d)
    (hp : d.valuePlaces.find? item = some place) (hn : b.tree.syntheticChild item = none) :
    ∃ s q, (b.tree.simpleSources item).head? = some s ∧ b.scalarPlace? d s = some q ∧
      d.scalarStep place = .go q := by
  have hvalued := h.valued hh hp
  unfold Valued at hvalued
  rw [hn] at hvalued
  obtain ⟨s, q, hs, hq, _, hplace⟩ := hvalued
  refine ⟨s, q, hs, hq, ?_⟩
  split at hplace
  · unfold scalarStep
    rw [hplace]
  · exact scalarStep_of_narrowed h.sound.indexed hplace

theorem scalarPlace?_of_simple (hk : (b.tree.item x).kind = some .simple) :
    b.scalarPlace? d x = d.valuePlaces.find? x := by
  unfold scalarPlace?
  rw [if_pos hk]

theorem scalarPlace?_of_ne (hk : (b.tree.item x).kind ≠ some .simple) :
    b.scalarPlace? d x = d.places.find? x := by
  unfold scalarPlace?
  rw [if_neg hk]

theorem scalarPlace?_cases (hp : b.scalarPlace? d x = some place) :
    (b.tree.item x).kind = some .simple ∧ d.valuePlaces.find? x = some place ∨
      (b.tree.item x).kind ≠ some .simple ∧ d.places.find? x = some place := by
  by_cases hk : (b.tree.item x).kind = some .simple
  · exact .inl ⟨hk, (scalarPlace?_of_simple hk).symm.trans hp⟩
  · exact .inr ⟨hk, (scalarPlace?_of_ne hk).symm.trans hp⟩

/-- The place of a fundamental item has its scalar. -/
theorem Assembled.ends_fundamental (h : b.Assembled P root d) (hh : Held d)
    (hk : (b.tree.item x).kind = some .fundamental) (hp : d.places.find? x = some place) :
    Ends d.scalarStep place (namedFundamental (b.tree.item x)) := by
  obtain ⟨info, hget, htyped⟩ := h.typed hh hp
  unfold Typed at htyped
  rw [hk] at htyped
  obtain ⟨type, htype, rfl⟩ := htyped
  refine .halt ?_
  unfold scalarStep
  rw [hget, htype]

/-- The place of a simple object itself has no scalar. -/
theorem Assembled.ends_simple (h : b.Assembled P root d) (hh : Held d)
    (hk : (b.tree.item x).kind = some .simple) (hp : d.places.find? x = some place) :
    Ends d.scalarStep place none := by
  obtain ⟨info, hget, htyped⟩ := h.typed hh hp
  unfold Typed at htyped
  rw [hk] at htyped
  obtain ⟨_, _, _, _, rfl⟩ := htyped
  refine .halt ?_
  unfold scalarStep
  rw [hget]

/-- The place of an item whose chain ends at a fundamental one comes to its scalar. -/
theorem Assembled.comesTo_of_chain (h : b.Assembled P root d) (hh : Held d) (ht : b.tree.Resolved)
    (hx : Ends b.tree.referenceStep x (.item last))
    (hk : (b.tree.item last).kind = some .fundamental)
    (htype : namedFundamental (b.tree.item last) = some type)
    (hp : d.places.find? x = some place) : d.ComesTo place type := by
  have hends := h.ends_of_chain hh ht hx (fun _ hq => h.ends_fundamental hh hk hq) (fun _ => rfl) x
    .refl place hp
  rw [htype] at hends
  exact hends

/-- The chain of an item whose own place comes to a scalar ends at a fundamental type. Behind a
reference to a simple object there would be the object itself, and not its value. -/
theorem Assembled.fundamental_of_comesTo (h : b.Assembled P root d) (hh : Held d)
    (ht : b.tree.Resolved) (hp : d.places.find? x = some place)
    (htype : b.tree.fundamentalOf x = some type) {type' : Fundamental}
    (hc : d.ComesTo place type') :
    ∃ last, Ends b.tree.referenceStep x (.item last) ∧
      (b.tree.item last).kind = some .fundamental := by
  obtain ⟨last, hlast, hne⟩ := ht.ends x
  refine ⟨last, hlast, ?_⟩
  have hends := (ht.wellFormed.regular.ends_fundamental_iff hlast).1
    (fundamentalOf_eq_some_iff.1 htype)
  rcases kind_of_ends hends with hk | hk | hk
  · exact hk
  · exact absurd hk hne
  · have hnone : Ends d.scalarStep place none :=
      h.ends_of_chain hh ht hlast (fun _ hp => h.ends_simple hh hk hp)
        (fun hk' => absurd (hk'.symm.trans hk) (by simp)) x .refl place hp
    cases hnone.unique hc

/-- No simple object is on a chain to a fundamental type. -/
theorem not_simple_of_follows {y last : ItemId}
    (hlast : Ends b.tree.referenceStep x (.item last))
    (hkl : (b.tree.item last).kind = some .fundamental)
    (hxy : Relation.ReflTransGen (Follows b.tree.referenceStep) x y) :
    (b.tree.item y).kind ≠ some .simple := fun hk => by
  have hself : Ends b.tree.referenceStep y (.item y) :=
    .halt (referenceStep_of_ne (by rw [hk]; simp))
  cases (hlast.follow hxy).unique hself
  rw [hk] at hkl
  cases hkl

/-- A value that comes to a scalar of an object that wraps a fundamental type is where that type
is. -/
theorem Assembled.plainlyValued (h : b.Assembled P root d) (hh : Held d) (ht : b.tree.Resolved)
    (hp : d.valuePlaces.find? item = some place)
    (htype : b.tree.fundamentalOf item = some type) {type' : Fundamental}
    (hc : d.ComesTo place type') : b.tree.PlainlyValued item := by
  have hends := fundamentalOf_eq_some_iff.1 htype
  generalize hr : some type = r at hends
  induction hends generalizing place with
  | @halt x r hstep =>
    have hk := h.sound.valuePlaces x place hp
    cases hs : b.tree.syntheticChild x with
    | some child => exact .own (by rw [hs]; rfl)
    | none =>
      obtain ⟨s, _, hsource, _⟩ := h.scalarStep_of_source hh hp hs
      rw [fundamentalStep_of_source hk hs hsource] at hstep
      cases hstep
  | @go x s r hstep hs' ih =>
    have hk := h.sound.valuePlaces x place hp
    cases hs : b.tree.syntheticChild x with
    | some child => exact .own (by rw [hs]; rfl)
    | none =>
      obtain ⟨s', q, hsource, hq, hgo⟩ := h.scalarStep_of_source hh hp hs
      rw [fundamentalStep_of_source hk hs hsource] at hstep
      cases hstep
      have hcq : d.ComesTo q type' := (ends_iff_of_go hgo).1 hc
      subst hr
      by_cases hks : (b.tree.item s).kind = some .simple
      · rw [scalarPlace?_of_simple hks] at hq
        exact .simple hs hsource hks (ih hq (fundamentalOf_eq_some_iff.2 hs') hcq rfl)
      · rw [scalarPlace?_of_ne hks] at hq
        obtain ⟨last, hlast, hkl⟩ := h.fundamental_of_comesTo hh ht hq
          (fundamentalOf_eq_some_iff.2 hs') hcq
        exact .scalar hs hsource (chainEnd_eq_ok_iff.2 hlast) hkl

/-- The value of a plainly valued object comes to the type that the object wraps. -/
theorem Assembled.comesTo_of_plainlyValued (h : b.Assembled P root d) (hh : Held d)
    (ht : b.tree.Resolved) (hv : b.tree.PlainlyValued item)
    (hp : d.valuePlaces.find? item = some place) (htype : b.tree.fundamentalOf item = some type) :
    d.ComesTo place type := by
  have hr := ht.wellFormed.regular
  have hafter : ∀ {x y : ItemId}, b.tree.fundamentalStep x = .go y →
      b.tree.fundamentalOf x = some type → Ends b.tree.fundamentalStep y (some type) :=
    fun hgo hx => (ends_iff_of_go hgo).1 (fundamentalOf_eq_some_iff.1 hx)
  induction hv generalizing place with
  | @own item hs =>
    obtain ⟨child, hchild⟩ := Option.isSome_iff_exists.1 hs
    have hk := h.sound.valuePlaces item place hp
    have hkind := ((hr.items child).synthetic (mem_of_syntheticChild hchild).2).2
    have hvalued := h.valued hh hp
    unfold Valued at hvalued
    rw [hchild] at hvalued
    obtain ⟨type', htype', hget⟩ := hvalued
    have hends := hafter (fundamentalStep_of_synthetic hk hchild) htype
    have heq : some type = some type' :=
      hends.unique (.halt ((fundamentalStep_of_fundamental hkind).trans (congrArg _ htype')))
    cases heq
    refine .halt ?_
    unfold scalarStep
    rw [hget]
  | @simple item s hn hs hks _ ih =>
    have hk := h.sound.valuePlaces item place hp
    obtain ⟨s', q, hs', hq, hgo⟩ := h.scalarStep_of_source hh hp hn
    rw [hs] at hs'
    cases hs'
    rw [scalarPlace?_of_simple hks] at hq
    have hends := hafter (fundamentalStep_of_source hk hn hs) htype
    exact .go hgo (ih hq (fundamentalOf_eq_some_iff.2 hends))
  | @scalar item s last hn hs hend hkl =>
    have hk := h.sound.valuePlaces item place hp
    obtain ⟨s', q, hs', hq, hgo⟩ := h.scalarStep_of_source hh hp hn
    rw [hs] at hs'
    cases hs'
    have hchain := chainEnd_eq_ok_iff.1 hend
    have hlast : namedFundamental (b.tree.item last) = some type := by
      have hends := (hr.ends_fundamental_iff hchain).1
        (hafter (fundamentalStep_of_source hk hn hs) htype)
      exact (hends.unique (.halt (fundamentalStep_of_fundamental hkl))).symm
    have hks := not_simple_of_follows hchain hkl .refl
    rw [scalarPlace?_of_ne hks] at hq
    exact .go hgo (h.comesTo_of_chain hh ht hchain hkl hlast hq)

end Blueprint
end Schemata
