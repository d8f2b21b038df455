import Schemata.Proofs.Agreement
import Schemata.Proofs.Draft.Narrowing
import Schemata.Proofs.Indirection
import Schemata.Proofs.Outcome
import Schemata.Proofs.Precedence
import Schemata.Proofs.Values

/-! Constraints that do not contradict each other.

Every item's own constraints are checked. The scalars of a finished graph carry the
constraints of one item each, with one exception: a simple object that takes its value
over and writes constraints itself puts these over the constraints of its source, and
leaves out what was configured for it. Where a configured value is in the way, the two
sides have never been checked together. -/
namespace Schemata

open Search

/-! ### Overlays -/

namespace Draft

variable {d : Draft} {place : TypeInfoId} {s : ScalarShape}

theorem HasScalar.comesTo (hi : d.Indexed) (h : d.HasScalar place s) : d.ComesTo place s.type := by
  induction h with
  | here hget =>
    refine .halt ?_
    unfold scalarStep
    rw [hget]
  | behind hget _ ih =>
    refine .go ?_ ih
    unfold scalarStep
    rw [hget]
  | narrowed hn _ ih => exact .go (scalarStep_of_narrowed hi hn) ih

end Draft

namespace Blueprint

open Draft ItemTree

variable {b : Blueprint} {P : ItemId → Prop} {root : ElementId} {d : Draft} {x : ItemId}
  {place : TypeInfoId} {s : ScalarShape} {key : String} {type : Fundamental}

theorem find?_constraintsOf (metadata : Metadata) (hkey : type.hasAttribute key) :
    (constraintsOf metadata type).find? key = Metadata.value? metadata key := by
  unfold constraintsOf Metadata.value?
  rw [OrderedMap.find?_mapValues, OrderedMap.find?_filter_key _ fun key => type.hasAttribute key,
    if_pos hkey]

theorem find?_explicitConstraintsOf (metadata : Metadata) (hkey : type.hasAttribute key) :
    (explicitConstraintsOf metadata type).find? key =
      ((metadata.find? key).filter fun entry => entry.provenance = .explicit).map Entry.value := by
  unfold explicitConstraintsOf
  rw [find?_constraintsOf _ hkey]
  unfold Metadata.value?
  rw [OrderedMap.find?_filter]

/-- What an object takes over it narrows by what it writes itself. -/
theorem find?_overlay (htype : b.tree.fundamentalOf x = some type) (hkey : type.hasAttribute key) :
    (b.overlay x).find? key = (((b.tree.item x).metadata.find? key).filter
      fun entry => entry.provenance = .explicit).map Entry.value := by
  unfold overlay
  rw [htype]
  exact find?_explicitConstraintsOf _ hkey

/-- What is not put over what an object takes over is not written on it. -/
theorem unwritten_of_overlay (htype : b.tree.fundamentalOf x = some type)
    (hkey : type.hasAttribute key) (hnone : (b.overlay x).find? key = none) {entry : Entry}
    (he : (b.tree.item x).metadata.find? key = some entry) : entry.provenance ≠ .explicit :=
  fun hexplicit => by
    have hoverlay := find?_overlay htype hkey
    rw [hnone, he, Option.filter_some, if_pos (by simpa using hexplicit)] at hoverlay
    cases hoverlay

/-- What is put over is a value of the object. -/
theorem value?_of_overlay {v : Value} (htype : b.tree.fundamentalOf x = some type)
    (hkey : type.hasAttribute key) (hv : (b.overlay x).find? key = some v) :
    Metadata.value? (b.tree.item x).metadata key = some v := by
  rw [find?_overlay htype hkey] at hv
  obtain ⟨entry, he, rfl⟩ := Option.map_eq_some_iff.1 hv
  unfold Metadata.value?
  rw [(Option.filter_eq_some_iff.1 he).1]
  rfl

/-! ### The ways to a scalar -/

/-- The place of the value of a simple object: it has the scalar of the synthetic child, or leads on
to the place of the source. -/
theorem Assembled.value_cases (h : b.Assembled P root d) (hh : Held d)
    (hp : d.valuePlaces.find? x = some place) :
    (∃ z type, b.tree.syntheticChild x = some z ∧ namedFundamental (b.tree.item z) = some type ∧
      d.typeInfos.get? place =
        some ⟨.one, .scalar ⟨type, constraintsOf (b.tree.item z).metadata type⟩⟩) ∨
    ∃ y q, b.tree.syntheticChild x = none ∧ (b.tree.simpleSources x).head? = some y ∧
      b.scalarPlace? d y = some q ∧
      if (b.overlay x).isEmpty then d.typeInfos.get? place = some ⟨.one, .ref q⟩
      else d.narrowings.find? place = some ⟨q, b.overlay x⟩ := by
  have hvalued := h.valued hh hp
  unfold Valued at hvalued
  cases hc : b.tree.syntheticChild x with
  | some z =>
    rw [hc] at hvalued
    obtain ⟨type, htype, hget⟩ := hvalued
    exact .inl ⟨z, type, rfl, htype, hget⟩
  | none =>
    rw [hc] at hvalued
    obtain ⟨y, q, hy, hq, _, hget⟩ := hvalued
    exact .inr ⟨y, q, rfl, hy, hq, hget⟩

/-- The place of another item has a scalar with the constraints of the item. -/
theorem Assembled.scalar_of_place (h : b.Assembled P root d) (hh : Held d)
    (hp : d.places.find? x = some place) {arity : Arity}
    (hget : d.typeInfos.get? place = some ⟨arity, .scalar s⟩) :
    s.constraints = constraintsOf (b.tree.item x).metadata s.type ∧
      ((b.tree.item x).kind = some .fundamental ∧
        namedFundamental (b.tree.item x) = some s.type ∨
        (b.tree.item x).kind = some .reference ∧ b.narrowed? x = some s.type) := by
  obtain ⟨info, hinfo, htyped⟩ := h.typed hh hp
  obtain rfl : info = ⟨arity, .scalar s⟩ := Option.some.inj (hinfo.symm.trans hget)
  unfold Typed at htyped
  split at htyped
  · next hk =>
    obtain ⟨type, htype, he⟩ := htyped
    cases he
    exact ⟨rfl, .inl ⟨hk, htype⟩⟩
  · obtain ⟨_, _, _, _, he⟩ := htyped
    cases he
  · obtain ⟨_, _, _, _, he⟩ := htyped
    cases he
  · obtain ⟨_, _, he⟩ := htyped
    cases he
  · next hk =>
    obtain ⟨shape, he, hshape⟩ := htyped
    cases he
    cases hn : b.narrowed? x with
    | some type =>
      rw [hn] at hshape
      cases hshape
      exact ⟨rfl, .inr ⟨hk, rfl⟩⟩
    | none =>
      rw [hn] at hshape
      obtain ⟨_, _, _, _, he⟩ := hshape
      cases he
  · obtain ⟨shape, he, _, _, _, _, hshape⟩ := htyped
    cases he
    cases hshape
  · cases htyped
  · cases htyped
  · cases htyped
  · cases htyped

/-- Or it leads on to what stands for the target of the item, unless a reference narrows it. -/
theorem Assembled.ref_of_place (h : b.Assembled P root d) (hh : Held d)
    (hp : d.places.find? x = some place) (hk : (b.tree.item x).kind ≠ some .list) {arity : Arity}
    {q : TypeInfoId} (hget : d.typeInfos.get? place = some ⟨arity, .ref q⟩) :
    (b.tree.item x).kind = some .reference ∧ b.narrowed? x = none ∧
      ∃ y, (b.tree.item x).target? = some (.item y) ∧ d.places.find? (b.standIn y) = some q := by
  obtain ⟨info, hinfo, htyped⟩ := h.typed hh hp
  obtain rfl : info = ⟨arity, .ref q⟩ := Option.some.inj (hinfo.symm.trans hget)
  unfold Typed at htyped
  split at htyped
  · obtain ⟨_, _, he⟩ := htyped
    cases he
  · obtain ⟨_, _, _, _, he⟩ := htyped
    cases he
  · obtain ⟨_, _, _, _, he⟩ := htyped
    cases he
  · obtain ⟨_, _, he⟩ := htyped
    cases he
  · next hk =>
    obtain ⟨shape, he, hshape⟩ := htyped
    cases he
    cases hn : b.narrowed? x with
    | some type =>
      rw [hn] at hshape
      cases hshape
    | none =>
      rw [hn] at hshape
      obtain ⟨y, place, htarget, hq, he⟩ := hshape
      cases he
      exact ⟨hk, rfl, y, htarget, hq⟩
  · next hlist => exact absurd hlist hk
  · cases htyped
  · cases htyped
  · cases htyped
  · cases htyped

/-- A reference to a fundamental type that does not narrow it is a mere alias. -/
theorem isAlias_of_narrowed?_eq_none (ht : b.tree.Resolved)
    (hk : (b.tree.item x).kind = some .reference) (hn : b.narrowed? x = none)
    {last : ItemId} (hlast : Ends b.tree.referenceStep x (.item last))
    (hkl : (b.tree.item last).kind = some .fundamental) : b.tree.IsAlias x := by
  refine ⟨hk, Bool.eq_false_iff.2 fun haugmenting => ?_⟩
  obtain ⟨type, htype⟩ := namedFundamental_of_kind ht.wellFormed.regular hkl
  unfold narrowed? at hn
  rw [chainEnd_eq_ok_iff.2 hlast] at hn
  dsimp only at hn
  rw [if_pos ⟨hkl, haugmenting⟩, htype] at hn
  cases hn

end Blueprint

namespace ItemTree

open Draft Blueprint

variable {t t₁ t₂ t₃ m r a : ItemTree} {plugin : Plugin} {options : Options} {x y : ItemId}
  {key : String} {type : Fundamental} {P : ItemId → Prop} {d d' : Draft} {c : Compiled}
  {place : TypeInfoId} {s : ScalarShape} {arity : Arity}

/-! ### Whose scalar it is -/

/-- What assembling the elements of a tree leaves. -/
def assembly (a : ItemTree) (plugin : Plugin) : Draft :=
  match (a.blueprint plugin).assemble.run {} with
  | .ok (_, d) => d
  | .error _ => {}

/-- The place is that of the type or of the value of an item, or of the value of the object that the
item has been split off from. -/
def Occupies (a : ItemTree) (plugin : Plugin) (x : ItemId) (place : TypeInfoId) : Prop :=
  (a.assembly plugin).places.find? x = some place ∨
    (a.assembly plugin).valuePlaces.find? x = some place ∨
    ∃ o, a.syntheticChild o = some x ∧ (a.assembly plugin).valuePlaces.find? o = some place

theorem BuiltBy.assembly_eq (h : a.BuiltBy plugin P d d' c) : a.assembly plugin = d := by
  unfold assembly
  rw [h.run]

/-! ### The constraints that a scalar carries -/

/-- A scalar has the values of an item's entries for the constraints of its type. -/
def Constrains (a : ItemTree) (x : ItemId) (s : ScalarShape) : Prop :=
  ∀ key, s.type.hasAttribute key →
    s.constraints.find? key = Metadata.value? (a.item x).metadata key

/-- There is a configured value under a key for which an item has no entry written on it. -/
def Rivalled (a : ItemTree) (values : OrderedMap String Value) (x : ItemId) (key : String) : Prop :=
  (values.find? key).isSome ∧
    ∀ entry, (a.item x).metadata.find? key = some entry → entry.provenance ≠ .explicit

theorem constrains_constraintsOf (he : s.constraints = constraintsOf (a.item x).metadata s.type) :
    a.Constrains x s := fun _ hkey => by
  rw [he, find?_constraintsOf _ hkey]

/-- A reference that narrows a fundamental type wraps it. -/
theorem fundamentalOf_of_narrowed (hr : a.Resolved)
    (hn : (a.blueprint plugin).narrowed? x = some type) : a.fundamentalOf x = some type := by
  unfold Blueprint.narrowed? at hn
  split at hn
  · next last hend =>
    split at hn
    · next hk =>
      refine fundamentalOf_eq_some_iff.2 ?_
      refine (hr.wellFormed.regular.ends_fundamental_iff (chainEnd_eq_ok_iff.1 hend)).2 (.halt ?_)
      exact (fundamentalStep_of_fundamental hk.1).trans (congrArg Step.halt hn)
    · cases hn
  · cases hn

theorem fundamentalOf_of_kind (hk : (a.item x).kind = some .fundamental)
    (hn : namedFundamental (a.item x) = some type) : a.fundamentalOf x = some type :=
  fundamentalOf_eq_some_iff.2
    (.halt ((fundamentalStep_of_fundamental hk).trans (congrArg Step.halt hn)))

/-! ### What is not configured -/

section Unconfigured

variable (h : Admittance plugin options t t₁ t₂ t₃ m r a) (hbuilt : a.BuiltBy plugin P d d' c)
  (hconfig : (options.config.valuesFor plugin.name).find? key = none)
include h hconfig

/-- All aliases on the way from an item to what stands for it agree. -/
theorem Admittance.agrees_standIn (hname : (a.item y).name.isSome)
    (htype : a.fundamentalOf y = some type) (hkey : type.hasAttribute key) :
    a.fundamentalOf ((a.blueprint plugin).standIn y) = some type ∧
      (a.item ((a.blueprint plugin).standIn y)).name.isSome ∧
      Metadata.value? (a.item y).metadata key =
        Metadata.value? (a.item ((a.blueprint plugin).standIn y)).metadata key := by
  have hregular := h.admitted.resolved.wellFormed.regular
  have haliases :=
    (aliases_standIn (b := a.blueprint plugin) h.admitted.resolved y).1
  generalize (a.blueprint plugin).standIn y = z at haliases
  induction haliases with
  | refl => exact ⟨htype, hname, rfl⟩
  | @tail x z _ hxz ih =>
    obtain ⟨htx, hnx, hagree⟩ := ih
    have hbehind := behind_of_aliasStep hxz
    obtain ⟨htz, hnext⟩ := h.agrees_alias hbehind hnx htx hkey hconfig
    exact ⟨htz, hregular.named_of_refers hbehind.2, hagree.trans hnext⟩

/-- An object agrees with what it takes its value over from, where it writes nothing itself. -/
theorem Admittance.agrees_taken (hk : (a.item x).kind = some .simple)
    (hn : a.syntheticChild x = none) (hy : (a.simpleSources x).head? = some y)
    (htype : a.fundamentalOf x = some type) (hkey : type.hasAttribute key)
    (hnone : ((a.blueprint plugin).overlay x).find? key = none) :
    Metadata.value? (a.item y).metadata key = Metadata.value? (a.item x).metadata key :=
  (h.agrees_source hk hn hy htype hkey hconfig fun _ he =>
    unwritten_of_overlay (b := a.blueprint plugin) htype hkey hnone he).symm

include hbuilt

/-- An alias of a fundamental type agrees with what its place leads on to. -/
theorem Admittance.agrees_onward {q : TypeInfoId} (hp : d.places.find? x = some place)
    (hget : d.typeInfos.get? place = some ⟨arity, .ref q⟩)
    (hcomes : d.ComesTo place type) (hname : (a.item x).name.isSome)
    (htype : a.fundamentalOf x = some type) (hkey : type.hasAttribute key) :
    ∃ z, (a.blueprint plugin).scalarPlace? d z = some q ∧ (a.item z).name.isSome ∧
      a.fundamentalOf z = some type ∧
      Metadata.value? (a.item z).metadata key = Metadata.value? (a.item x).metadata key := by
  have hr := h.admitted.resolved
  have hlist : (a.item x).kind ≠ some .list := fun hl => by
    rcases kind_of_ends (fundamentalOf_eq_some_iff.1 htype) with he | he | he <;>
      rw [hl] at he <;> cases he
  obtain ⟨hk, hnarrowed, y, htarget, hq⟩ :=
    hbuilt.assembled.ref_of_place hbuilt.held hp hlist hget
  have hrefers : a.Refers x y := ⟨hk, htarget⟩
  obtain ⟨last, hlast, hkl⟩ :=
    hbuilt.assembled.fundamental_of_comesTo hbuilt.held hr hp htype hcomes
  have halias := isAlias_of_narrowed?_eq_none (b := a.blueprint plugin) hr hk hnarrowed hlast hkl
  obtain ⟨hty, hagree⟩ := h.agrees_alias ⟨halias, hrefers⟩ hname htype hkey hconfig
  obtain ⟨htz, hnz, hagree'⟩ :=
    h.agrees_standIn hconfig (hr.wellFormed.regular.named_of_refers hrefers) hty hkey
  have hks := not_simple_of_follows (b := a.blueprint plugin) hlast hkl
    (.head (follows_of_refers hrefers) (follows_standIn (b := a.blueprint plugin) hr y).1)
  exact ⟨_, (scalarPlace?_of_ne hks).trans hq, hnz, htz, hagree'.symm.trans hagree.symm⟩

/-- Without a configured value for a constraint, scalars have the values of the items they
are of. -/
theorem Admittance.scalar_agrees (hs : d.HasScalar place s) (hkey : s.type.hasAttribute key)
    (hp : (a.blueprint plugin).scalarPlace? d x = some place)
    (hname : (a.item x).kind = some .simple ∨ (a.item x).name.isSome)
    (htype : a.fundamentalOf x = some s.type) :
    s.constraints.find? key = Metadata.value? (a.item x).metadata key := by
  have hassembled := hbuilt.assembled
  have hi := hassembled.sound.indexed
  have hh := hbuilt.held
  have hregular := h.admitted.resolved.wellFormed.regular
  induction hs generalizing x with
  | @here place arity s hget =>
    rcases scalarPlace?_cases (b := a.blueprint plugin) hp with ⟨hk, hplace⟩ | ⟨hk, hplace⟩
    · rcases hassembled.value_cases hh hplace with
        ⟨z, type, hchild, _, hget'⟩ | ⟨y, q, _, _, _, hvalue⟩
      · cases hget.symm.trans hget'
        rw [find?_constraintsOf _ hkey]
        exact (h.agrees_syntheticChild hchild htype hkey hconfig).symm
      · split at hvalue
        · cases hget.symm.trans hvalue
        · cases hget.symm.trans (hi.narrowed place _ hvalue).1
    · exact constrains_constraintsOf (hassembled.scalar_of_place hh hplace hget).1 key hkey
  | @behind place q arity s hget hs ih =>
    rcases scalarPlace?_cases (b := a.blueprint plugin) hp with ⟨hk, hplace⟩ | ⟨hk, hplace⟩
    · rcases hassembled.value_cases hh hplace with
        ⟨_, _, _, _, hget'⟩ | ⟨y, q', hn, hy, hq, hvalue⟩
      · cases hget.symm.trans hget'
      · split at hvalue
        · next hempty =>
          cases hget.symm.trans hvalue
          obtain ⟨hny, hty⟩ := hregular.fundamentalOf_source hk hn hy htype
          have hnone : ((a.blueprint plugin).overlay x).find? key = none := by
            unfold OrderedMap.find?
            rw [List.isEmpty_iff.1 hempty]
            rfl
          rw [ih hkey hq (.inr hny) hty]
          exact h.agrees_taken hconfig hk hn hy htype hkey hnone
        · cases hget.symm.trans (hi.narrowed place _ hvalue).1
    · obtain ⟨z, hz, hnz, htz, hagree⟩ := h.agrees_onward hbuilt hconfig hplace hget
        ((HasScalar.behind hget hs).comesTo hi) (hname.resolve_left hk) htype hkey
      rw [ih hkey hz (.inr hnz) htz, hagree]
  | @narrowed place n s hn hs ih =>
    have hempty := (hi.narrowed place n hn).1
    rcases scalarPlace?_cases (b := a.blueprint plugin) hp with ⟨hk, hplace⟩ | ⟨_, hplace⟩
    · rcases hassembled.value_cases hh hplace with
        ⟨_, _, _, _, hget⟩ | ⟨y, q, hc, hy, hq, hvalue⟩
      · cases hempty.symm.trans hget
      · split at hvalue
        · cases hempty.symm.trans hvalue
        · cases hn.symm.trans hvalue
          refine (OrderedMap.find?_insertAll_entries _ _ key).trans ?_
          cases hwritten : ((a.blueprint plugin).overlay x).find? key with
          | some v => exact (value?_of_overlay (b := a.blueprint plugin) htype hkey hwritten).symm
          | none =>
            obtain ⟨hny, hty⟩ := hregular.fundamentalOf_source hk hc hy htype
            rw [Option.none_or, ih hkey hq (.inr hny) hty]
            exact h.agrees_taken hconfig hk hc hy htype hkey hwritten
    · obtain ⟨info, hget, _⟩ := hassembled.typed hh hplace
      cases hempty.symm.trans hget

end Unconfigured

/-! ### What is written -/

/-- An object that narrows a value puts what is written on it over what its source has. -/
theorem BuiltBy.scalar_of_written (hbuilt : a.BuiltBy plugin P d d' c) {entry : Entry}
    (hs : d.HasScalar place s) (hp : d.valuePlaces.find? x = some place)
    (hnarrowed : (d.narrowings.find? place).isSome) (htype : a.fundamentalOf x = some s.type)
    (hkey : s.type.hasAttribute key) (he : (a.item x).metadata.find? key = some entry)
    (hexplicit : entry.provenance = .explicit) : s.constraints.find? key = some entry.value := by
  obtain ⟨n, hn⟩ := Option.isSome_iff_exists.1 hnarrowed
  have hempty := (hbuilt.assembled.sound.indexed.narrowed place n hn).1
  cases hs with
  | here hget => cases hempty.symm.trans hget
  | behind hget _ => cases hempty.symm.trans hget
  | narrowed hn' _ =>
    cases hn.symm.trans hn'
    have hoverlay : n.overlay = (a.blueprint plugin).overlay x := by
      rcases hbuilt.assembled.value_cases hbuilt.held hp with
        ⟨_, _, _, _, hget⟩ | ⟨_, _, _, _, _, hvalue⟩
      · cases hempty.symm.trans hget
      · split at hvalue
        · cases hempty.symm.trans hvalue
        · cases hn.symm.trans hvalue
          rfl
    have hwritten : ((a.blueprint plugin).overlay x).find? key =
        (((a.item x).metadata.find? key).filter
          fun entry => entry.provenance = .explicit).map Entry.value := find?_overlay htype hkey
    rw [he, Option.filter_some, if_pos (by simpa using hexplicit)] at hwritten
    refine (OrderedMap.find?_insertAll_entries _ _ key).trans ?_
    rw [hoverlay, hwritten]
    rfl

/-! ### All together -/

/-- Where a scalar of a finished graph is from: it carries the constraints of an item whose place it
is at, or it is the value of an object that narrows it, where it carries those of the object if none
is rivalled. -/
theorem Admittance.scalar_cases (h : Admittance plugin options t t₁ t₂ t₃ m r a)
    (hbuilt : a.BuiltBy plugin P d d' c) (hbuild : a.build plugin = .ok c)
    (hget : c.graph.typeInfos.get? place = some ⟨arity, .scalar s⟩) :
    ∃ x, a.Occupies plugin x place ∧ a.fundamentalOf x = some s.type ∧ (a.Constrains x s ∨
      (a.assembly plugin).valuePlaces.find? x = some place ∧ (a.blueprint plugin).Narrows x ∧
        ∃ key, s.type.hasAttribute key ∧
          a.Rivalled (options.config.valuesFor plugin.name) x key) := by
  unfold Occupies
  rw [hbuilt.assembly_eq]
  have hassembled := hbuilt.assembled
  have hi := hassembled.sound.indexed
  have hh := hbuilt.held
  have hr := h.admitted.resolved
  obtain ⟨_, hfrom, hgets⟩ := scalarsFrom_of_build hbuild hbuilt
  rcases hfrom.scalar place _ _ ((hgets place).symm.trans hget) with hget | ⟨hnarrowed, hs⟩
  · have hmem : place ∈ d.places.values ++ d.valuePlaces.values :=
      hi.places.symm.subset
        ((TypeInfoArena.mem_ids _ _).2 (TypeInfoArena.index_lt_of_get? hget))
    rcases List.mem_append.1 hmem with hmem | hmem
    · obtain ⟨x, hp⟩ := (OrderedMap.mem_values_iff _ _).1 hmem
      obtain ⟨he, hkind⟩ := hassembled.scalar_of_place hh hp hget
      refine ⟨x, .inl hp, ?_, .inl (constrains_constraintsOf he)⟩
      rcases hkind with ⟨hk, hn⟩ | ⟨_, hn⟩
      · exact fundamentalOf_of_kind hk hn
      · exact fundamentalOf_of_narrowed hr hn
    · obtain ⟨x, hp⟩ := (OrderedMap.mem_values_iff _ _).1 hmem
      rcases hassembled.value_cases hh hp with
        ⟨z, type, hchild, hn, hget'⟩ | ⟨_, _, _, _, _, hvalue⟩
      · cases hget.symm.trans hget'
        have hk := ((hr.wellFormed.regular.items z).synthetic (mem_of_syntheticChild hchild).2).2
        exact ⟨z, .inr (.inr ⟨x, hchild, hp⟩), fundamentalOf_of_kind hk hn,
          .inl (constrains_constraintsOf rfl)⟩
      · split at hvalue
        · cases hget.symm.trans hvalue
        · cases hget.symm.trans (hi.narrowed place _ hvalue).1
  · obtain ⟨n, hn⟩ := Option.isSome_iff_exists.1 hnarrowed
    obtain ⟨x, hp, hnarrows⟩ := hassembled.narrows_of_narrowed hh hn
    obtain ⟨type, htype⟩ := hnarrows.fundamentalOf
    have hcomes := hs.comesTo hi
    have hplain := hassembled.plainlyValued hh hr hp htype hcomes
    have hsame : some type = some s.type :=
      (hassembled.comesTo_of_plainlyValued hh hr hplain hp htype).unique hcomes
    cases hsame
    refine ⟨x, .inr (.inl hp), htype, ?_⟩
    by_cases hrival : ∃ key, s.type.hasAttribute key ∧
        a.Rivalled (options.config.valuesFor plugin.name) x key
    · exact .inr ⟨hp, hnarrows, hrival⟩
    refine .inl fun key hkey => ?_
    by_cases hconfig : (options.config.valuesFor plugin.name).find? key = none
    · exact h.scalar_agrees hbuilt hconfig hs hkey
        ((scalarPlace?_of_simple (b := a.blueprint plugin) hnarrows.kind).trans hp)
        (.inl hnarrows.kind) htype
    · -- a configured value is no rival only if there is a written one
      have hexplicit : ∃ entry, (a.item x).metadata.find? key = some entry ∧
          entry.provenance = .explicit := by
        by_contra hn
        exact hrival ⟨key, hkey, Option.isSome_iff_ne_none.2 hconfig,
          fun entry he hexplicit => hn ⟨entry, he, hexplicit⟩⟩
      obtain ⟨entry, he, hexplicit⟩ := hexplicit
      rw [hbuilt.scalar_of_written hs hp hnarrowed htype hkey he hexplicit]
      unfold Metadata.value?
      rw [he]
      rfl

/-- **Scalars are consistent, unless a configured value is in the way.** Let a declared tree be
compiled for a plugin that brings no attributes of its own for constraints. Every scalar of the
graph is at the place of an item which wraps its type. It carries the constraints of the item, which
do not contradict each other; or the item is an object that narrows a value it takes over, the
scalar is at the place of this value, and there is a configured value for a constraint that is not
written on the object. -/
theorem compile_constraints (h : t.Declared) (hplugin : plugin.LeavesConstraints)
    (hok : t.compile plugin options = .ok c) :
    ∃ a, t.compileTree plugin options = .ok (a, c) ∧
      ∀ place arity s, c.graph.typeInfos.get? place = some ⟨arity, .scalar s⟩ →
        ∃ x, a.Occupies plugin x place ∧ a.fundamentalOf x = some s.type ∧
          (a.Constrains x s ∧ s.Consistent ∨
            (a.assembly plugin).valuePlaces.find? x = some place ∧
              (a.blueprint plugin).Narrows x ∧ ∃ key, s.type.hasAttribute key ∧
                a.Rivalled (options.config.valuesFor plugin.name) x key) := by
  obtain ⟨a, d, d', hc, _, _, hbuilt⟩ := compile_built h.reachable hok
  obtain ⟨r, hr, ha, hbuild⟩ := compileTree_stages hc
  obtain ⟨t₁, t₂, t₃, m, hp⟩ := passage_of_resolve h hr
  have hadmittance : Admittance plugin options t t₁ t₂ t₃ m r a := ⟨hp, h, hr, ha, hplugin⟩
  refine ⟨a, hc, fun place arity s hget => ?_⟩
  obtain ⟨x, hplace, htype, hcases⟩ := hadmittance.scalar_cases hbuilt hbuild hget
  refine ⟨x, hplace, htype, hcases.imp_left fun hconstrains => ⟨hconstrains, ?_⟩⟩
  have hconsistent := consistent_of_admitAll h.reachable.wellFormed hr ha hplugin
    (hadmittance.ne_root htype) (hadmittance.fundamentalOf ▸ htype)
  exact hconsistent.congr hconstrains

/-- A text of eighteen letters at least, and one like it of fifteen letters at most. -/
def narrowedLengths : ItemTree :=
  ((ofSource "").push root
      (((Item.object (some "leaf")).withBase "string").withMetadata "min_length" (.int 18))).push
    root (((Item.object (some "wrapper")).withBase "leaf").withMetadata "max_length" (.int 15))

/-- With the configured least length of ten letters the second text is fine, but it is the
contradicting length of the first that its scalar has. -/
theorem narrowedLengths_rivalled :
    narrowedLengths.Declared ∧
    ({ name := "any", capabilities := .allElements } : Plugin).LeavesConstraints ∧
    ∃ a c place arity s,
      narrowedLengths.compileTree { name := "any", capabilities := .allElements } tenLetters =
        .ok (a, c) ∧
      c.graph.typeInfos.get? place = some ⟨arity, .scalar s⟩ ∧ ¬ s.Consistent ∧
      ∃ x, (a.assembly { name := "any", capabilities := .allElements }).valuePlaces.find? x =
          some place ∧
        (a.blueprint { name := "any", capabilities := .allElements }).Narrows x ∧
        ∃ key, s.type.hasAttribute key ∧
          a.Rivalled (tenLetters.config.valuesFor "any") x key := by
  have hdeclared : narrowedLengths.Declared :=
    ((Declared.source "").push (p := root) (by decide)
      (((Item.Declared.object (some "leaf")).withBase "string").withMetadata "min_length"
        (.int 18))).push (p := root) (by decide)
      (((Item.Declared.object (some "wrapper")).withBase "leaf").withMetadata "max_length"
        (.int 15))
  have hplugin :
      ({ name := "any", capabilities := .allElements } : Plugin).LeavesConstraints :=
    fun _ attribute_ hmem => by simp at hmem
  have hcompiled :
      (narrowedLengths.compileTree { name := "any", capabilities := .allElements }
        tenLetters).toOption.bind
          (fun r => (r.2.graph.typeInfos.get? ⟨4⟩).bind fun info => info.shape.scalar?.map fun s =>
            (s.type, (s.constraints.find? "min_length").bind Value.asInt?,
              (s.constraints.find? "max_length").bind Value.asInt?)) =
        some (.string, some 18, some 15) := by
    decide +kernel
  refine ⟨hdeclared, hplugin, ?_⟩
  obtain ⟨⟨a, c⟩, hok, hfound⟩ := Option.bind_eq_some_iff.1 hcompiled
  rw [toOption_eq_some_iff] at hok
  obtain ⟨⟨arity, shape⟩, hget, hscalar⟩ := Option.bind_eq_some_iff.1 hfound
  cases shape with
  | scalar s =>
    simp only [Shape.scalar?, Option.map_some, Option.some.injEq, Prod.mk.injEq] at hscalar
    obtain ⟨htype, hleast, hgreatest⟩ := hscalar
    obtain ⟨v, hv, hv18⟩ := Option.bind_eq_some_iff.1 hleast
    obtain ⟨w, hw, hw15⟩ := Option.bind_eq_some_iff.1 hgreatest
    have hinconsistent : ¬ s.Consistent := fun h => by
      unfold ScalarShape.Consistent ConsistentValues at h
      rw [htype] at h
      obtain ⟨least, greatest, rfl, rfl, hle⟩ := h v w hv hw
      cases hv18
      cases hw15
      revert hle
      decide
    have hcompile : narrowedLengths.compile { name := "any", capabilities := .allElements }
        tenLetters = .ok c := by
      unfold compile
      rw [hok]
      rfl
    obtain ⟨a', hok', hscalars⟩ := compile_constraints hdeclared hplugin hcompile
    cases hok.symm.trans hok'
    obtain ⟨x, _, _, ⟨_, hconsistent⟩ | hrivalled⟩ := hscalars ⟨4⟩ arity s hget
    · exact absurd hconsistent hinconsistent
    · exact ⟨a, c, ⟨4⟩, arity, s, hok, hget, hinconsistent, x, hrivalled⟩
  | _ => cases hscalar

end ItemTree
end Schemata
