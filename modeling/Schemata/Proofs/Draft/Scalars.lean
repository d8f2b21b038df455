import Schemata.Proofs.Draft.Changes
import Schemata.Proofs.Search
import Schemata.TypeInfo.Fields

/-! The scalar that a place comes to.

From a place one goes on along refs, and from a place that is narrowed to its
source; where neither is possible there is a scalar or there is none. Each place
leads to one other at most, so that the bounds of `resolve` and of `scalarAt` are
met by chains without an end only. -/
namespace Schemata

open Search

namespace TypeInfoArena

variable {arena : TypeInfoArena} {place target r : TypeInfoId}

/-! ### Refs -/

/-- Goes on at a ref and stops elsewhere. -/
def refStep (arena : TypeInfoArena) (place : TypeInfoId) : Step TypeInfoId TypeInfoId :=
  match arena.refAt place with
  | some target => .go target
  | none => .halt place

theorem refStep_of_some (h : arena.refAt place = some target) :
    arena.refStep place = .go target := by
  unfold refStep
  rw [h]

theorem refStep_of_none (h : arena.refAt place = none) : arena.refStep place = .halt place := by
  unfold refStep
  rw [h]

theorem resolveFrom_of_chaseFrom {bound : Nat} {seen : List TypeInfoId}
    (h : chaseFrom arena.refStep bound seen place = .ended r) :
    arena.resolveFrom bound place = r := by
  induction bound generalizing seen place with
  | zero => cases h
  | succ bound ih =>
    unfold chaseFrom at h
    unfold resolveFrom
    cases hr : arena.refAt place with
    | none =>
      rw [refStep_of_none hr] at h
      cases h
      rfl
    | some target =>
      rw [refStep_of_some hr] at h
      dsimp only at h
      split at h
      · cases h
      · exact ih h

theorem lt_of_refAt (h : arena.refAt place = some target) : place.index < arena.size := by
  unfold refAt at h
  obtain ⟨info, hi, _⟩ := Option.bind_eq_some_iff.1 h
  exact index_lt_of_get? hi

/-- `resolve` finds the end of refs that have one. -/
theorem resolve_eq_of_ends (h : Ends arena.refStep place r) : arena.resolve place = r := by
  have hgo : ∀ x y, arena.refStep x = .go y → x ∈ arena.ids := by
    intro x y hxy
    unfold refStep at hxy
    split at hxy
    · next hr => exact (mem_ids _ _).2 (lt_of_refAt hr)
    · cases hxy
  have hids : arena.ids.length < arena.size + 1 := by simp [ids]
  exact resolveFrom_of_chaseFrom ((chase_eq_ended_iff hgo hids place r).2 h)

end TypeInfoArena

theorem TypeInfoTable.get?_toArena (table : TypeInfoTable) (place : TypeInfoId) :
    table.toArena.get? place = table.get? place := by
  simp only [TypeInfoArena.get?, toArena, get?, Array.getElem?_map]
  cases table.infos[place.index]? <;> rfl

theorem TypeInfoTable.refAt_toArena (table : TypeInfoTable) (place : TypeInfoId) :
    table.toArena.refAt place = table.refAt place := by
  unfold TypeInfoArena.refAt refAt
  rw [get?_toArena]

/-- A finished table resolves its places as an arena does. -/
theorem TypeInfoTable.resolve_eq (table : TypeInfoTable) (place : TypeInfoId) :
    table.resolve place = table.toArena.resolve place := by
  have hfrom : ∀ left p, table.resolveFrom left p = table.toArena.resolveFrom (left + 1) p := by
    intro left
    induction left with
    | zero =>
      intro p
      unfold resolveFrom TypeInfoArena.resolveFrom
      rw [table.refAt_toArena]
      cases table.refAt p <;> rfl
    | succ left ih =>
      intro p
      unfold resolveFrom TypeInfoArena.resolveFrom
      rw [table.refAt_toArena]
      cases table.refAt p with
      | none => rfl
      | some target => exact ih target
  have hsize : table.toArena.size = table.size := by simp [TypeInfoArena.size, toArena, size]
  unfold resolve TypeInfoArena.resolve
  rw [hsize]
  exact hfrom table.size place

/-! ### Scalars -/

namespace Draft

variable {d : Draft} {place target : TypeInfoId} {r : Option Fundamental}

/-- Goes on at a ref or a narrowed place; elsewhere there is a scalar or none. -/
def scalarStep (d : Draft) (place : TypeInfoId) : Step TypeInfoId (Option Fundamental) :=
  match d.typeInfos.get? place with
  | some ⟨_, .ref target⟩ => .go target
  | some ⟨_, .scalar s⟩ => .halt (some s.type)
  | some _ => .halt none
  | none =>
    match d.narrowings.find? place with
    | some narrowing => .go narrowing.source
    | none => .halt none

/-- A place comes to a scalar of a type. -/
def ComesTo (d : Draft) (place : TypeInfoId) (type : Fundamental) : Prop :=
  Ends d.scalarStep place (some type)

theorem scalarStep_of_refAt (h : d.typeInfos.refAt place = some target) :
    d.scalarStep place = .go target := by
  unfold TypeInfoArena.refAt at h
  obtain ⟨⟨arity, shape⟩, hi, hs⟩ := Option.bind_eq_some_iff.1 h
  unfold scalarStep
  cases shape <;> cases hs
  rw [hi]

theorem ends_resolveFrom (bound : Nat) (place : TypeInfoId) :
    Ends d.scalarStep (d.typeInfos.resolveFrom bound place) r ↔ Ends d.scalarStep place r := by
  induction bound generalizing place with
  | zero => exact Iff.rfl
  | succ bound ih =>
    unfold TypeInfoArena.resolveFrom
    cases hr : d.typeInfos.refAt place with
    | none => exact Iff.rfl
    | some target => exact (ih target).trans (ends_iff_of_go (scalarStep_of_refAt hr)).symm

/-- What a place comes to is what the place behind its refs comes to, which is no ref. -/
theorem refAt_resolve (h : Ends d.scalarStep place r) :
    d.typeInfos.refAt (d.typeInfos.resolve place) = none := by
  have hend : ∃ last, Ends d.typeInfos.refStep place last ∧ d.typeInfos.refAt last = none := by
    induction h with
    | @halt x r hx =>
      have hr : d.typeInfos.refAt x = none := by
        cases hr : d.typeInfos.refAt x with
        | none => rfl
        | some target => rw [scalarStep_of_refAt hr] at hx; cases hx
      exact ⟨x, .halt (TypeInfoArena.refStep_of_none hr), hr⟩
    | @go x y r hx _ ih =>
      cases hr : d.typeInfos.refAt x with
      | none => exact ⟨x, .halt (TypeInfoArena.refStep_of_none hr), hr⟩
      | some target =>
        rw [scalarStep_of_refAt hr] at hx
        cases hx
        obtain ⟨last, hl, hn⟩ := ih
        exact ⟨last, .go (TypeInfoArena.refStep_of_some hr) hl, hn⟩
  obtain ⟨last, hl, hn⟩ := hend
  rw [TypeInfoArena.resolve_eq_of_ends hl]
  exact hn

theorem scalarStep_of_narrowed (h : d.Indexed) {n : Narrowing}
    (hn : d.narrowings.find? place = some n) : d.scalarStep place = .go n.source := by
  unfold scalarStep
  rw [(h.narrowed place n hn).1]
  dsimp only
  rw [hn]

theorem scalarFrom_sound (h : d.Indexed) {bound : Nat} {s : ScalarShape}
    (hs : d.scalarFrom bound place = some s) : d.ComesTo place s.type := by
  induction bound generalizing place s with
  | zero => cases hs
  | succ bound ih =>
    refine (ends_resolveFrom (d.typeInfos.size + 1) place).1 ?_
    unfold scalarFrom at hs
    dsimp only at hs
    split at hs
    · next n hn =>
      obtain ⟨s', hs', rfl⟩ := Option.map_eq_some_iff.1 hs
      have hsource : d.ComesTo n.source s'.type := ih hs'
      exact .go (scalarStep_of_narrowed h hn) hsource
    · split at hs
      · next arity s' hget =>
        cases hs
        refine .halt ?_
        unfold scalarStep
        rw [show d.typeInfos.get? (d.typeInfos.resolveFrom _ place) = _ from hget]
      · cases hs

theorem follows_resolveFrom (bound : Nat) (place : TypeInfoId) :
    Relation.ReflTransGen (Follows d.scalarStep) place (d.typeInfos.resolveFrom bound place) := by
  induction bound generalizing place with
  | zero => exact .refl
  | succ bound ih =>
    unfold TypeInfoArena.resolveFrom
    cases hr : d.typeInfos.refAt place with
    | none => exact .refl
    | some target => exact .head (scalarStep_of_refAt hr) (ih target)

/-- A place that comes to a scalar without going on has that scalar. -/
theorem scalar_of_unnarrowed {type : Fundamental} (hc : d.ComesTo place type)
    (hr : d.typeInfos.refAt place = none) (hn : d.narrowings.find? place = none) :
    ∃ arity s, d.typeInfos.get? place = some ⟨arity, .scalar s⟩ ∧ s.type = type := by
  have hstep : d.scalarStep place = .halt (some type) := by
    cases hc with
    | halt h => exact h
    | go h _ =>
      exfalso
      unfold scalarStep at h
      split at h
      · next hget =>
        unfold TypeInfoArena.refAt at hr
        rw [hget] at hr
        cases hr
      · cases h
      · cases h
      · rw [hn] at h
        cases h
  unfold scalarStep at hstep
  split at hstep
  · cases hstep
  · next arity s hget =>
    cases hstep
    exact ⟨arity, s, hget, rfl⟩
  · cases hstep
  · rw [hn] at hstep
    cases hstep

/-- The places that are narrowed one after another are pairwise different, as a place that is met
again leads nowhere. -/
theorem scalarFrom_complete (h : d.Indexed) {bound : Nat} {seen : List TypeInfoId}
    {type : Fundamental} (hc : d.ComesTo place type) (hn : seen.Nodup)
    (hs : ∀ p ∈ seen, p ∈ d.narrowings.keys ∧ Relation.TransGen (Follows d.scalarStep) p place)
    (hb : d.narrowings.size < bound + seen.length) : (d.scalarFrom bound place).isSome := by
  induction bound generalizing seen place with
  | zero =>
    have hle := (List.subperm_of_subset hn fun p hp => (hs p hp).1).length_le
    have hsize : d.narrowings.keys.length = d.narrowings.size := List.length_map _
    omega
  | succ bound ih =>
    have hcp : d.ComesTo (d.typeInfos.resolve place) type := (ends_resolveFrom _ place).2 hc
    have hto : Relation.ReflTransGen (Follows d.scalarStep) place (d.typeInfos.resolve place) :=
      follows_resolveFrom _ place
    unfold scalarFrom
    dsimp only
    cases hnar : d.narrowings.find? (d.typeInfos.resolve place) with
    | some n =>
      have hstep := scalarStep_of_narrowed h hnar
      have hsource : d.ComesTo n.source type := (ends_iff_of_go hstep).1 hcp
      have hnew : d.typeInfos.resolve place ∉ seen := fun hmem =>
        hcp.acyclic ((hs _ hmem).2.trans_left hto)
      have hall : ∀ p ∈ d.typeInfos.resolve place :: seen, p ∈ d.narrowings.keys ∧
          Relation.TransGen (Follows d.scalarStep) p n.source := by
        intro p hp
        rcases List.mem_cons.1 hp with rfl | hp
        · exact ⟨(OrderedMap.find?_isSome_iff _ _).1 (by rw [hnar]; rfl), .single hstep⟩
        · exact ⟨(hs p hp).1, ((hs p hp).2.trans_left hto).tail hstep⟩
      have hsome := ih hsource (List.nodup_cons.2 ⟨hnew, hn⟩) hall
        (by rw [List.length_cons]; omega)
      dsimp only
      rw [Option.isSome_map]
      exact hsome
    | none =>
      obtain ⟨arity, s, hget, _⟩ := scalar_of_unnarrowed hcp (refAt_resolve hc) hnar
      dsimp only
      rw [hget]
      rfl

/-- **The scalar at a place.** It is found exactly when the place comes to one. -/
theorem scalarAt_isSome_iff (h : d.Indexed) :
    (d.scalarAt place).isSome ↔ ∃ type, d.ComesTo place type := by
  refine ⟨fun hs => ?_, fun ⟨type, hc⟩ => ?_⟩
  · obtain ⟨s, hs⟩ := Option.isSome_iff_exists.1 hs
    exact ⟨s.type, scalarFrom_sound h hs⟩
  · exact scalarFrom_complete h hc List.nodup_nil (by simp) (by simp)

end Draft
end Schemata
