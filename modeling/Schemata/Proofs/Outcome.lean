import Schemata.Proofs.Coverage
import Schemata.Proofs.Draft.Wrapping

/-! How the build of an admitted tree can end.

No item of such a tree fails by itself, and no place is left empty. A build fails
when a value or a name is refused, or when a simple object narrows a value that
comes to no scalar: it does so in the end for every object that narrows a value
without being plainly valued, unless something is refused before. -/
namespace Schemata

open Search

namespace Blueprint

open Draft ItemTree

variable {b : Blueprint} {root : ElementId} {d d' : Draft} {item : ItemId} {place : TypeInfoId}

/-- A simple object that takes its value over from a source, with constraints of its own. -/
structure Narrows (b : Blueprint) (item : ItemId) : Prop where
  kind : (b.tree.item item).kind = some .simple
  taken : b.tree.syntheticChild item = none
  overlay : (b.overlay item).isEmpty = false

theorem Narrows.fundamentalOf (h : b.Narrows item) :
    ∃ type, b.tree.fundamentalOf item = some type := by
  have hoverlay := h.overlay
  unfold Blueprint.overlay at hoverlay
  cases htype : b.tree.fundamentalOf item with
  | none =>
    rw [htype] at hoverlay
    cases hoverlay
  | some type => exact ⟨type, rfl⟩

/-! ### Wanted items have elements -/

theorem wanted_simple (h : b.tree.WellFormed) (hk : (b.tree.item item).kind = some .simple) :
    b.Wanted item := by
  have hform := (h.regular.items item).suits _ hk
  refine ⟨lt_size_of_kind hk, omits_eq_false_iff.2 ⟨fun hext => ?_, ?_, fun _ => .inl ?_⟩⟩
  · exact absurd hext (by simp [not_extension_of_form hform])
  · rw [Bool.eq_false_iff]
    intro hs
    have hfundamental := ((h.regular.items item).synthetic hs).2
    rw [hk] at hfundamental
    cases hfundamental
  · unfold isAlias
    rw [hk]
    rfl

/-- A narrowed place is that of the value of an object that narrows it. -/
theorem Assembled.narrows_of_narrowed {P : ItemId → Prop} {n : Narrowing}
    (h : b.Assembled P root d) (hh : Held d) (hn : d.narrowings.find? place = some n) :
    ∃ item, d.valuePlaces.find? item = some place ∧ b.Narrows item := by
  obtain ⟨hempty, _, item, hp⟩ := h.sound.indexed.narrowed place n hn
  have hvalued := h.valued hh hp
  refine ⟨item, hp, h.sound.valuePlaces item place hp, ?_, ?_⟩
  all_goals unfold Valued at hvalued
  · cases hs : b.tree.syntheticChild item with
    | none => rfl
    | some child =>
      rw [hs] at hvalued
      obtain ⟨_, _, hget⟩ := hvalued
      rw [hempty] at hget
      cases hget
  · rw [Bool.eq_false_iff]
    intro hoverlay
    split at hvalued
    · obtain ⟨_, _, hget⟩ := hvalued
      rw [hempty] at hget
      cases hget
    · obtain ⟨_, _, _, _, _, hget⟩ := hvalued
      rw [if_pos hoverlay, hempty] at hget
      cases hget

section Covered

variable (h : b.Assembled b.Wanted root d) (ht : b.tree.Admitted) (ho : b.tree.OnlyObjectsHold)
include h ht ho

/-- Places are asked for by wanted items, and these have elements. -/
theorem Assembled.held : Held d where
  places item place hp := by
    obtain ⟨id, hid, _⟩ := h.exists_id ht ho (h.sound.placed item place hp)
    exact ⟨id, hid⟩
  valuePlaces item place hp := by
    have hk := h.sound.valuePlaces item place hp
    obtain ⟨id, hid, _⟩ := h.exists_id ht ho (wanted_simple ht.resolved.wellFormed hk)
    exact ⟨id, hid⟩

/-- The value of an object that narrows it has a place that is narrowed. -/
theorem Assembled.narrowed_of_narrows (hi : b.Narrows item) :
    ∃ place n, d.valuePlaces.find? item = some place ∧ d.narrowings.find? place = some n := by
  obtain ⟨id, hid, _⟩ := h.exists_id ht ho (wanted_simple ht.resolved.wellFormed hi.kind)
  obtain ⟨info, _, hs⟩ := (h.described (h.sound.indexed.lt_of_idOf? hid)).shaped
  rw [h.sound.indexed.itemOf_of_idOf? hid] at hs
  obtain ⟨place, hp, hvalued⟩ := hs.valued hi.kind
  unfold Valued at hvalued
  rw [hi.taken] at hvalued
  obtain ⟨_, sourcePlace, _, _, _, hget⟩ := hvalued
  rw [if_neg (by simp [hi.overlay])] at hget
  exact ⟨place, _, hp, hget⟩

/-- Only values that are not where the type is come to no scalar. -/
theorem Assembled.of_unscaled (hu : d.Unscaled) :
    ∃ item, b.Narrows item ∧ ¬b.tree.PlainlyValued item := by
  obtain ⟨place, hn, hnone⟩ := hu
  obtain ⟨n, hn⟩ := Option.isSome_iff_exists.1 hn
  obtain ⟨item, hp, hi⟩ := h.narrows_of_narrowed (h.held ht ho) hn
  obtain ⟨type, htype⟩ := hi.fundamentalOf
  exact ⟨item, hi, fun hv => hnone
    ⟨type, h.comesTo_of_plainlyValued (h.held ht ho) ht.resolved hv hp htype⟩⟩

/-- Every place is filled in the end. -/
theorem Assembled.filled (hc : d.Completed root d') (hlt : place.index < d'.typeInfos.size) :
    (d'.typeInfos.get? place).isSome := by
  have hi := h.sound.indexed
  have hmem : place ∈ d.places.values ++ d.valuePlaces.values :=
    hi.places.symm.subset ((TypeInfoArena.mem_ids _ _).2 (hc.kept.typeInfos ▸ hlt))
  rcases List.mem_append.1 hmem with hmem | hmem
  · obtain ⟨item, hp⟩ := (OrderedMap.mem_values_iff _ _).1 hmem
    obtain ⟨info, hget, _⟩ := h.typed (h.held ht ho) hp
    exact hc.kept.filled place (by rw [hget]; rfl)
  · obtain ⟨item, hp⟩ := (OrderedMap.mem_values_iff _ _).1 hmem
    cases hn : d.narrowings.find? place with
    | some n =>
      -- all elements are met on the walk, so that the narrowing has been settled
      obtain ⟨id, hid⟩ := (h.held ht ho).valuePlaces item place hp
      have hidlt := hi.lt_of_idOf? hid
      have hk := h.kind hidlt
      rw [hi.itemOf_of_idOf? hid, h.sound.valuePlaces item place hp] at hk
      have hsettled := hc.settled id ((h.mem_walk_iff ht ho).2 hidlt) (Option.some.inj hk).symm
      have hnone := hsettled place (by
        rw [hc.kept.valuePlaces, hc.kept.itemOf, hi.itemOf_of_idOf? hid]
        exact hp)
      rcases hc.kept.narrowings place with hsame | ⟨_, hfilled, _⟩
      · rw [hnone, hn] at hsame
        cases hsame
      · exact hfilled
    | none =>
      have hvalued := h.valued (h.held ht ho) hp
      refine hc.kept.filled place ?_
      unfold Valued at hvalued
      split at hvalued
      · obtain ⟨_, _, hget⟩ := hvalued
        rw [hget]
        rfl
      · obtain ⟨_, _, _, _, _, hget⟩ := hvalued
        split at hget
        · rw [hget]
          rfl
        · rw [hn] at hget
          cases hget

end Covered

end Blueprint

/-! ### The outcome of a build -/

namespace ItemTree

open Draft Blueprint

variable {t a r : ItemTree} {plugin : Plugin} {options : Options}

/-- A build that fails has refused something, or met an object that is not plainly valued. -/
theorem Admitted.build_error (ht : a.Admitted) (ho : a.OnlyObjectsHold) {failure : Failure}
    (h : a.build plugin = .error failure) :
    RefusesValue failure ∨ RefusesName failure ∨ Unresolved failure ∧
      ∃ item, (a.blueprint plugin).Narrows item ∧ ¬a.PlainlyValued item := by
  rcases ItemTree.build_error (closed_wanted (b := a.blueprint plugin) ht) h with
    ⟨item, hw, hfault⟩ | hv | hn | ⟨hu, root, d, ha, hreason⟩
  · rw [fault_eq_none ht.resolved hw.lt] at hfault
    cases hfault
  · exact .inl hv
  · exact .inr (.inl hn)
  · refine .inr (.inr ⟨hu, ?_⟩)
    rcases hreason with hscale | ⟨d', place, hc, hlt, hempty⟩
    · exact ha.of_unscaled ht ho hscale
    · have hfilled := ha.filled ht ho hc hlt
      rw [hempty] at hfilled
      cases hfilled

/-- All objects that narrow a value are plainly valued, if the build succeeds. -/
theorem Admitted.plainlyValued (ht : a.Admitted) (ho : a.OnlyObjectsHold) {c : Compiled}
    (h : a.build plugin = .ok c) {item : ItemId} (hi : (a.blueprint plugin).Narrows item) :
    a.PlainlyValued item := by
  obtain ⟨d, d', hbuilt⟩ := build_ok (closed_wanted (b := a.blueprint plugin) ht) h
  have ha := hbuilt.assembled
  obtain ⟨place, n, hp, hn⟩ := ha.narrowed_of_narrows ht ho hi
  obtain ⟨type, htype⟩ := hi.fundamentalOf
  have hkept := hbuilt.completed.kept
  have hlt : place.index < d'.typeInfos.size := by
    rw [hkept.typeInfos]
    exact ha.sound.indexed.valuePlace_lt hp
  have hfilled := ha.filled ht ho hbuilt.completed hlt
  -- a place that is filled is not narrowed, so that the value has been settled with a scalar
  rcases hkept.narrowings place with hsame | ⟨_, _, type', hc⟩
  · obtain ⟨hempty, _⟩ := hbuilt.completed.indexed.narrowed place n (hsame.trans hn)
    rw [hempty] at hfilled
    cases hfilled
  · exact ha.plainlyValued (ha.held ht ho) ht.resolved hp htype hc

/-- **The outcome of a build.** After a tree in which only objects hold anything has been resolved
and admitted, the build succeeds or refuses a value or a name, if all simple objects that narrow a
value are plainly valued; otherwise it fails, and unless it refuses something first it does so
because a type never became known. -/
theorem build_outcome (h : t.Reachable) (ho : t.OnlyObjectsHold)
    (hr : t.resolve plugin options = .ok r) (ha : r.admitAll plugin options = .ok a) :
    ((∀ item, (a.blueprint plugin).Narrows item → a.PlainlyValued item) →
      (∃ c, a.build plugin = .ok c) ∨ ∃ failure, a.build plugin = .error failure ∧
        (RefusesValue failure ∨ RefusesName failure)) ∧
    ((∃ item, (a.blueprint plugin).Narrows item ∧ ¬a.PlainlyValued item) →
      ∃ failure, a.build plugin = .error failure ∧
        (RefusesValue failure ∨ RefusesName failure ∨ Unresolved failure)) := by
  obtain ⟨hrefined, hresolved⟩ := resolve_ok h.wellFormed hr
  obtain ⟨halike, ht⟩ := admitted_of_admitAll hresolved ha
  have hobjects : a.OnlyObjectsHold := halike.onlyObjectsHold (hrefined.objects ho)
  constructor
  · intro hall
    cases hb : a.build plugin with
    | ok c => exact .inl ⟨c, rfl⟩
    | error failure =>
      refine .inr ⟨failure, rfl, ?_⟩
      rcases ht.build_error hobjects hb with hv | hn | ⟨_, item, hi, hnot⟩
      · exact .inl hv
      · exact .inr hn
      · exact absurd (hall item hi) hnot
  · rintro ⟨item, hi, hnot⟩
    cases hb : a.build plugin with
    | ok c => exact absurd (ht.plainlyValued hobjects hb hi) hnot
    | error failure =>
      refine ⟨failure, rfl, ?_⟩
      rcases ht.build_error hobjects hb with hv | hn | ⟨hu, _⟩
      · exact .inl hv
      · exact .inr (.inl hn)
      · exact .inr (.inr hu)

/-- A simple object that narrows the value of another one, which it refers to by an alias. -/
def narrowedAlias : ItemTree :=
  (((ofSource "").push root ((Item.object (some "leaf")).withBase "string")).push root
    (Item.declaration (some "alias") "leaf")).push root
    (((Item.object (some "wrapper")).withBase "alias").withMetadata "max_length" (.int 5))

/-- It is admitted, and its build fails for a type that never became known. -/
theorem narrowedAlias_unresolved :
    narrowedAlias.Reachable ∧ narrowedAlias.OnlyObjectsHold ∧ ∃ r a failure,
      narrowedAlias.resolve { name := "any", capabilities := .allElements } {} = .ok r ∧
      r.admitAll { name := "any", capabilities := .allElements } {} = .ok a ∧
      a.build { name := "any", capabilities := .allElements } = .error failure ∧
      failure.cause = .unresolvedTypeInfo "wrapper" ∧
      ∃ item, (a.blueprint { name := "any", capabilities := .allElements }).Narrows item ∧
        ¬a.PlainlyValued item := by
  have hleaf := (Item.Declared.object (some "leaf")).withBase "string"
  have halias := Item.Declared.declaration (some "alias") "leaf"
  have hwrapper := ((Item.Declared.object (some "wrapper")).withBase "alias").withMetadata
    "max_length" (.int 5)
  have hreachable : narrowedAlias.Reachable :=
    (((Reachable.source "").push (p := root) (by decide) hleaf).push (p := root) (by decide)
      halias).push (p := root) (by decide) hwrapper
  have hobjects : narrowedAlias.OnlyObjectsHold :=
    (((onlyObjectsHold_ofSource "").push (p := root) (by decide) hleaf.fresh rfl).push (p := root)
      (by decide) halias.fresh rfl).push (p := root) (by decide) hwrapper.fresh rfl
  have hcause :
      ((narrowedAlias.resolve { name := "any", capabilities := .allElements } {}).toOption.bind
        fun r => (r.admitAll { name := "any", capabilities := .allElements } {}).toOption.bind
          fun a => match a.build { name := "any", capabilities := .allElements } with
            | .ok _ => none
            | .error failure => some failure.cause) =
        some (.unresolvedTypeInfo "wrapper") := by decide +kernel
  refine ⟨hreachable, hobjects, ?_⟩
  cases hr : narrowedAlias.resolve { name := "any", capabilities := .allElements } {} with
  | error e =>
    rw [hr] at hcause
    cases hcause
  | ok r =>
    rw [hr] at hcause
    cases ha : r.admitAll { name := "any", capabilities := .allElements } {} with
    | error failure =>
      simp only [Except.toOption, Option.bind_some, ha] at hcause
      cases hcause
    | ok a =>
      simp only [Except.toOption, Option.bind_some, ha] at hcause
      cases hb : a.build { name := "any", capabilities := .allElements } with
      | ok c =>
        rw [hb] at hcause
        cases hcause
      | error failure =>
        rw [hb] at hcause
        have hunresolved := Option.some.inj hcause
        refine ⟨r, a, failure, rfl, ha, hb, hunresolved, ?_⟩
        by_contra hnone
        rcases (build_outcome hreachable hobjects hr ha).1 fun item hi => by
            by_contra hnot
            exact hnone ⟨item, hi, hnot⟩ with
          ⟨c, hok⟩ | ⟨failure', hf, hrefused⟩
        · rw [hb] at hok
          cases hok
        · rw [hb] at hf
          cases hf
          rcases hrefused with ⟨_, _, hc⟩ | ⟨_, hc⟩ <;>
            · rw [hunresolved] at hc
              cases hc

end ItemTree
end Schemata
