import Schemata.Proofs.Tree.Invariants

/-! What settling arities makes of every item.

An item takes its arity from the end of a chain, and all items on the way have theirs
from there as well. Settling an item shortens the chains that it is on, but does not
change what they come to. So every item gets the arity that its chain comes to in the
tree that the pass starts from. -/
namespace Schemata.ItemTree

open Search

variable {t t' t₁ t₂ : ItemTree} {id x : ItemId} {a : Arity} {ids done : List ItemId}

/-! ### One item -/

theorem size_settle (t : ItemTree) (a : Arity) (ids : List ItemId) :
    (t.settle a ids).size = t.size :=
  List.foldrRecOn (motive := fun t' => t'.size = t.size) ids _ rfl fun t' ht' x _ =>
    (size_modify t' x _).trans ht'

theorem item_settle (t : ItemTree) (a : Arity) (ids : List ItemId) (x : ItemId) :
    (t.settle a ids).item x =
      if x ∈ ids ∧ x.index < t.size then settledAt a (t.item x) else t.item x := by
  induction ids with
  | nil =>
    rw [if_neg fun h => List.not_mem_nil h.1]
    rfl
  | cons y rest ih =>
    show ((t.settle a rest).modify y (settledAt a)).item x = _
    rw [item_modify, ih, size_settle]
    by_cases hlt : x.index < t.size
    · by_cases hxy : x = y
      · have hmem : x ∈ y :: rest ∧ x.index < t.size := ⟨hxy ▸ List.mem_cons_self, hlt⟩
        rw [if_pos ⟨hxy, hlt⟩, if_pos hmem]
        split <;> rfl
      · rw [if_neg fun h => hxy h.1]
        simp only [List.mem_cons, hxy, false_or]
    · rw [if_neg fun h => hlt h.2, if_neg fun h => hlt h.2, if_neg fun h => hlt h.2]

theorem settleArity_eq_ok (hend : Ends t.arityStep id a) :
    t.settleArity id = .ok (t.settle a (trail t.arityStep (t.size + 1) id)) := by
  have hgo : ∀ x y, t.arityStep x = .go y → x ∈ t.ids := fun x y hxy => by
    refine (t.mem_ids x).2 (Nat.lt_of_not_le fun hle => ?_)
    unfold arityStep at hxy
    rw [item_of_size_le hle] at hxy
    cases hxy
  unfold settleArity
  rw [(chase_eq_ended_iff hgo (show t.ids.length < t.size + 1 by simp [ids]) id a).2 hend]

theorem ends_of_settleArity (h : t.settleArity id = .ok t') :
    ∃ a, Ends t.arityStep id a ∧ t' = t.settle a (trail t.arityStep (t.size + 1) id) := by
  unfold settleArity at h
  split at h
  · next a hchase =>
    cases h
    exact ⟨a, chaseFrom_sound hchase, rfl⟩
  · cases h

theorem settlesAlike_settle (hends : ∀ x ∈ ids, Ends t.arityStep x a) :
    t.SettlesAlike (t.settle a ids) :=
  (settle_keeps (I := fun _ => True) hends trivial fun _ _ _ _ _ _ => trivial).1

theorem settlesAlike_of_settleArity (h : t.settleArity id = .ok t') : t.SettlesAlike t' := by
  obtain ⟨a, hend, rfl⟩ := ends_of_settleArity h
  exact settlesAlike_settle fun _ => hend.of_mem_trail

/-! ### All items -/

/-- An item has got the arity at the end of its chain. -/
def IsSettled (t t' : ItemTree) (x : ItemId) : Prop :=
  ∃ a, Ends t.arityStep x a ∧ t'.item x = settledAt a (t.item x)

/-- Where settling has got to. Items that it has not come to may be settled as well. -/
structure SettledSoFar (t : ItemTree) (done : List ItemId) (t' : ItemTree) : Prop
    extends t.SettlesAlike t' where
  done : ∀ x ∈ done, x.index < t.size → t.IsSettled t' x
  item : ∀ x, t'.item x = t.item x ∨ t.IsSettled t' x

namespace SettledSoFar

variable (h : t.SettledSoFar done t₁)
include h

section Settle

variable (hends : ∀ x ∈ ids, Ends t₁.arityStep x a)
include hends

/-- What is settled now has been left alone so far, or was settled on the way. -/
theorem isSettled_settle (hx : x ∈ ids) (hlt : x.index < t.size) :
    t.IsSettled (t₁.settle a ids) x := by
  refine ⟨a, (h.ends x a).1 (hends x hx), ?_⟩
  rw [item_settle, if_pos ⟨hx, h.size.symm ▸ hlt⟩]
  rcases h.item x with he | ⟨_, _, he⟩
  · rw [he]
  · rw [he]
    rfl

theorem settle : t.SettledSoFar (done ++ ids) (t₁.settle a ids) := by
  have hother : ∀ x, ¬(x ∈ ids ∧ x.index < t.size) →
      (t₁.settle a ids).item x = t₁.item x := fun x hx => by
    rw [item_settle, if_neg fun hc => hx ⟨hc.1, h.size ▸ hc.2⟩]
  refine ⟨h.toSettlesAlike.trans (settlesAlike_settle hends), fun x hx hlt => ?_, fun x => ?_⟩
  · by_cases hmem : x ∈ ids
    · exact h.isSettled_settle hends hmem hlt
    · obtain ⟨b, hb, he⟩ := h.done x ((List.mem_append.1 hx).resolve_right hmem) hlt
      exact ⟨b, hb, (hother x fun hc => hmem hc.1).trans he⟩
  · by_cases hmem : x ∈ ids ∧ x.index < t.size
    · exact .inr (h.isSettled_settle hends hmem.1 hmem.2)
    · unfold IsSettled
      rw [hother x hmem]
      exact h.item x

end Settle

theorem step (hok : t₁.settleArity id = .ok t₂) : t.SettledSoFar (done ++ [id]) t₂ := by
  obtain ⟨a, hend, rfl⟩ := ends_of_settleArity hok
  have hpassed : ∀ x ∈ trail t₁.arityStep (t₁.size + 1) id, Ends t₁.arityStep x a :=
    fun _ => hend.of_mem_trail
  have hall := h.settle hpassed
  refine { hall with done := fun x hx hlt => hall.done x ?_ hlt }
  rcases List.mem_append.1 hx with hx | hx
  · exact List.mem_append_left _ hx
  · obtain rfl := List.mem_singleton.1 hx
    exact List.mem_append_right _ (mem_trail _ _)

end SettledSoFar

/-- What settling makes of all items. -/
structure SettledFrom (t t' : ItemTree) : Prop extends t.Alike t' where
  item : ∀ x, x.index < t.size →
    ∃ a, Ends t.arityStep x a ∧ t'.item x = settledAt a (t.item x)

theorem settledFrom_of_settleArities (ht : t.Rooted) (h : t.settleArities = .ok t') :
    t.SettledFrom t' := by
  have hall : t.SettledSoFar t.walk t' :=
    foldlM_ok (t.SettledSoFar) h ⟨.refl t, by simp, fun _ => .inl rfl⟩
      fun _ _ _ _ _ _ hinv hstep => hinv.step hstep
  exact ⟨hall.toAlike, fun x hx => hall.done x (ht.mem_walk_iff.2 hx) hx⟩

/-- Settling leaves alone all but the arities. -/
theorem SettledFrom.field {α : Type} (h : t.SettledFrom t') (g : Item → α)
    (hg : ∀ a i, g (settledAt a i) = g i) (x : ItemId) : g (t'.item x) = g (t.item x) := by
  by_cases hx : x.index < t.size
  · obtain ⟨a, _, he⟩ := h.item x hx
    rw [he, hg]
  · rw [item_of_size_le (Nat.le_of_not_lt hx), item_of_size_le (h.size ▸ Nat.le_of_not_lt hx)]

/-- Settling succeeds as soon as all chains of arities come to an end. -/
theorem settleArities_ok_of_ends (ht : t.Rooted)
    (h : ∀ x, x.index < t.size → ∃ a, Ends t.arityStep x a) : ∃ t', t.settleArities = .ok t' := by
  cases hs : t.settleArities with
  | ok t' => exact ⟨t', rfl⟩
  | error e =>
    obtain ⟨_, x, _, t₁, hwalk, hsame, herror⟩ :=
      foldlM_error (fun _ t' => t.SettlesAlike t') hs (.refl t)
        fun _ _ _ _ _ _ hinv hstep => hinv.trans (settlesAlike_of_settleArity hstep)
    obtain ⟨a, hend⟩ := h x (ht.mem_walk_iff.1 (by rw [hwalk]; simp))
    rw [settleArity_eq_ok ((hsame.ends x a).2 hend)] at herror
    cases herror

end Schemata.ItemTree
