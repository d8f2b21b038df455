import Schemata.Proofs.Draft.Finish
import Schemata.Proofs.Values

/-! Refs lead to the same place before and after an arena is finished.

An arena looks at the steps it has left before it follows a ref, a finished table
after it. Still both follow one ref more than there are places, so that they leave a
circle of refs at the same place. Refs that do not circle end before that: among as
many places as there are one more than that cannot all be different. -/
namespace Schemata

open Search

namespace TypeInfoArena

variable {arena : TypeInfoArena} {table : TypeInfoTable} {place p q : TypeInfoId}

/-! ### Refs and where they end -/

/-- No place is left to be filled. -/
def Filled (arena : TypeInfoArena) : Prop :=
  ∀ place, place.index < arena.size → (arena.get? place).isSome

/-- What is at `p` is a ref to `q`. -/
def Refers (arena : TypeInfoArena) (p q : TypeInfoId) : Prop :=
  ∃ arity, arena.get? p = some ⟨arity, .ref q⟩

/-- A place past the end, or one whose shape is no ref. -/
def IsEnd (arena : TypeInfoArena) (place : TypeInfoId) : Prop :=
  arena.size ≤ place.index ∨ ∃ info, arena.get? place = some info ∧ info.shape.ref? = none

/-- No place that refs lead to from this one leads back to itself. -/
def Straight (arena : TypeInfoArena) (place : TypeInfoId) : Prop :=
  ∀ p, Relation.ReflTransGen arena.Refers place p → ¬Relation.TransGen arena.Refers p p

theorem refers_iff : arena.Refers p q ↔ arena.refAt p = some q := by
  unfold refAt
  constructor
  · rintro ⟨arity, hp⟩
    rw [hp]
    rfl
  · intro h
    obtain ⟨⟨arity, shape⟩, hp, hq⟩ := Option.bind_eq_some_iff.1 h
    cases shape with
    | ref target =>
      cases hq
      exact ⟨arity, hp⟩
    | _ => cases hq

theorem follows_refStep : Follows arena.refStep = arena.Refers := by
  funext p q
  refine propext ⟨fun h => ?_, fun h => refStep_of_some (refers_iff.1 h)⟩
  unfold Follows refStep at h
  split at h
  · next target hp =>
    cases h
    exact refers_iff.2 hp
  · cases h

theorem Filled.isEnd_iff (h : arena.Filled) : arena.IsEnd p ↔ arena.refAt p = none := by
  unfold refAt
  constructor
  · rintro (hp | ⟨info, hp, hshape⟩)
    · cases hget : arena.get? p with
      | none => rfl
      | some info => exact absurd (index_lt_of_get? hget) (Nat.not_lt.2 hp)
    · rw [hp]
      exact hshape
  · intro hp
    by_cases hlt : p.index < arena.size
    · obtain ⟨info, hget⟩ := Option.isSome_iff_exists.1 (h p hlt)
      rw [hget] at hp
      exact .inr ⟨info, hget, hp⟩
    · exact .inl (Nat.le_of_not_lt hlt)

/-- Refs that do not circle end, as there are only so many places. -/
theorem Straight.ends (h : arena.Straight place) : ∃ last, Ends arena.refStep place last := by
  have hgo : ∀ p q, arena.refStep p = .go q → p ∈ arena.ids := fun p q hpq => by
    obtain ⟨arity, hp⟩ : arena.Refers p q := follows_refStep ▸ hpq
    exact (mem_ids arena p).2 (index_lt_of_get? hp)
  rcases ends_or_circles hgo place with hends | ⟨p, hpath, hcircle⟩
  · exact hends
  · rw [follows_refStep] at hpath hcircle
    exact absurd hcircle (h p hpath)

theorem straight_of_ends {last : TypeInfoId} (h : Ends arena.refStep place last) :
    arena.Straight place := by
  unfold Straight
  rw [← follows_refStep]
  exact fun _ hpath => (h.follow hpath).acyclic

/-- A chain of refs has one end, and it stops there. -/
theorem ends_refStep_iff {last : TypeInfoId} : Ends arena.refStep place last ↔
    Relation.ReflTransGen arena.Refers place last ∧ arena.refAt last = none := by
  constructor
  · intro h
    induction h with
    | @halt p last hp =>
      cases hr : arena.refAt p with
      | none =>
        rw [refStep_of_none hr] at hp
        cases hp
        exact ⟨.refl, hr⟩
      | some target =>
        rw [refStep_of_some hr] at hp
        cases hp
    | @go p q last hp _ ih => exact ⟨.head (follows_refStep ▸ hp) ih.1, ih.2⟩
  · rintro ⟨hpath, hlast⟩
    induction hpath using Relation.ReflTransGen.head_induction_on with
    | refl => exact .halt (refStep_of_none hlast)
    | head hpq _ ih => exact .go (refStep_of_some (refers_iff.1 hpq)) ih

/-! ### Finishing -/

theorem Filled.finish (h : arena.Filled) : ∃ table, arena.finish = .ok table := by
  cases hf : arena.finish with
  | ok table => exact ⟨table, rfl⟩
  | error place =>
    obtain ⟨hlt, hnone⟩ := finish_error hf
    have hsome := h place hlt
    rw [hnone] at hsome
    cases hsome

/-- A finished table resolves all places as the arena did. -/
theorem resolve_of_finish (h : arena.finish = .ok table) (place : TypeInfoId) :
    table.resolve place = arena.resolve place := by
  obtain ⟨hsize, hget⟩ := finish_ok h
  have htoArena : table.toArena.size = arena.size := by
    rw [← hsize]
    simp [TypeInfoTable.toArena, size, TypeInfoTable.size]
  rw [table.resolve_eq]
  unfold resolve
  rw [htoArena]
  exact resolveFrom_congr (fun p => (table.get?_toArena p).trans (hget p)) _ place

/-- **Both resolvers agree.** An arena without a gap can be finished, and the table resolves every
place as the arena does, along whatever refs. Unless these come to a circle, a place is resolved to
the one place they lead to that is past the end or whose shape is no ref. -/
theorem resolve_finish (h : arena.Filled) : ∃ table, arena.finish = .ok table ∧
    ∀ place, table.resolve place = arena.resolve place ∧
      (arena.Straight place → ∀ p, p = arena.resolve place ↔
        Relation.ReflTransGen arena.Refers place p ∧ arena.IsEnd p) := by
  obtain ⟨table, hfinish⟩ := h.finish
  refine ⟨table, hfinish, fun place => ⟨resolve_of_finish hfinish place, fun hstraight p => ?_⟩⟩
  obtain ⟨last, hends⟩ := hstraight.ends
  rw [resolve_eq_of_ends hends, h.isEnd_iff, ← ends_refStep_iff]
  exact ⟨fun hp => hp ▸ hends, fun hp => hp.unique hends⟩

/-- Two refs in a row, a place that refers to itself, two that refer to each other, and a ref past
the end. -/
def tangledRefs : TypeInfoArena := ⟨#[some ⟨.one, .ref ⟨1⟩⟩, some ⟨.one, .ref ⟨2⟩⟩,
  some ⟨.one, .any⟩, some ⟨.one, .ref ⟨3⟩⟩, some ⟨.one, .ref ⟨5⟩⟩, some ⟨.one, .ref ⟨4⟩⟩,
  some ⟨.one, .ref ⟨9⟩⟩]⟩

/-- The refs in a row lead to their end, and the circle of two is left where it was entered. -/
theorem tangledRefs_resolved :
    tangledRefs.Filled ∧ tangledRefs.Straight ⟨0⟩ ∧ ¬tangledRefs.Straight ⟨4⟩ ∧
      ∃ table, tangledRefs.finish = .ok table ∧ table.resolve ⟨0⟩ = ⟨2⟩ ∧
        table.resolve ⟨4⟩ = ⟨4⟩ ∧ table.resolve ⟨6⟩ = ⟨9⟩ ∧
        Relation.ReflTransGen tangledRefs.Refers ⟨0⟩ ⟨2⟩ ∧ tangledRefs.IsEnd ⟨2⟩ := by
  have hfilled : tangledRefs.Filled := fun ⟨i⟩ hi =>
    (by decide : ∀ i < 7, (tangledRefs.get? ⟨i⟩).isSome) i hi
  have hstraight : tangledRefs.Straight ⟨0⟩ :=
    straight_of_ends (.go rfl (.go rfl (.halt rfl)) : Ends tangledRefs.refStep ⟨0⟩ ⟨2⟩)
  have hcircle : ¬tangledRefs.Straight ⟨4⟩ := fun h =>
    h ⟨4⟩ .refl (.head ⟨_, rfl⟩ (.single ⟨_, rfl⟩))
  obtain ⟨table, hfinish, hresolve⟩ := resolve_finish hfilled
  obtain ⟨hpath, hend⟩ := ((hresolve ⟨0⟩).2 hstraight ⟨2⟩).1 rfl
  exact ⟨hfilled, hstraight, hcircle, table, hfinish, (hresolve ⟨0⟩).1, (hresolve ⟨4⟩).1,
    (hresolve ⟨6⟩).1, hpath, hend⟩

end TypeInfoArena
end Schemata
