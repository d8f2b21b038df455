import Mathlib.Data.List.Nodup
import Schemata.Proofs.Tree.Passes
import Schemata.Proofs.Tree.Rooted

/-! Passes that meet every item once.

The walk from the root lists no item twice, as every item stands under one other
only (`Rooted.nodup_walk`). So a pass that changes nothing but the item it is at finds
each item as it was when the pass began, and leaves behind what it has made of it
then (`foldlM_visits`). -/
namespace Schemata.ItemTree

variable {t t' : ItemTree} {id a b c p x : ItemId} {l : List ItemId}

/-! ### The walk lists no item twice -/

/-- An item stands under another one, or is it. -/
def Under (t : ItemTree) : ItemId → ItemId → Prop := Relation.ReflTransGen fun p c => c ∈ t.listed p

theorem Rooted.index_lt (h : t.Rooted) (hc : c ∈ t.listed p) : p.index < c.index := by
  obtain ⟨hlt, hp⟩ := h.listed p c hc
  exact h.lt_of_parent hlt hp

theorem Rooted.le_of_under (h : t.Rooted) (hax : t.Under a x) : a.index ≤ x.index := by
  induction hax with
  | refl => exact Nat.le_refl _
  | tail _ hc ih => exact Nat.le_trans ih (Nat.le_of_lt (h.index_lt hc))

/-- Of two items above a third one, one stands under the other. -/
theorem Rooted.under_total (h : t.Rooted) (hax : t.Under a x) (hbx : t.Under b x) :
    t.Under a b ∨ t.Under b a := by
  induction hax with
  | refl => exact .inr hbx
  | @tail p x hap hpx ih =>
    rcases Relation.ReflTransGen.cases_tail hbx with rfl | ⟨q, hbq, hqx⟩
    · exact .inl (hap.tail hpx)
    · obtain rfl : p = q :=
        Option.some.inj ((h.listed p x hpx).2.symm.trans (h.listed q x hqx).2)
      exact ih hbq

/-- What stands under one item of a list does not stand under another. -/
theorem Rooted.eq_of_under_siblings (h : t.Rooted) (ha : a ∈ t.listed p) (hb : b ∈ t.listed p)
    (hax : t.Under a x) (hbx : t.Under b x) : a = b := by
  -- the parent of an item under the other one would not come before that one
  have hdirect : ∀ {a b : ItemId}, a ∈ t.listed p → b ∈ t.listed p → t.Under a b → a = b :=
    fun {a b} ha hb hab => by
      rcases Relation.ReflTransGen.cases_tail hab with rfl | ⟨q, haq, hqb⟩
      · rfl
      · obtain rfl : q = p :=
          Option.some.inj ((h.listed q b hqb).2.symm.trans (h.listed p b hb).2)
        exact absurd (h.le_of_under haq) (Nat.not_le.2 (h.index_lt ha))
  rcases h.under_total hax hbx with hab | hba
  · exact hdirect ha hb hab
  · exact (hdirect hb ha hba).symm

theorem under_of_mem_walkFrom {bound : Nat} (hx : x ∈ t.walkFrom bound id) : t.Under id x := by
  induction bound generalizing id with
  | zero => cases hx
  | succ bound ih =>
    rw [walkFrom_succ] at hx
    rcases List.mem_cons.1 hx with rfl | hx
    · exact .refl
    · obtain ⟨c, hc, hx⟩ := List.mem_flatMap.1 hx
      exact .head hc (ih hx)

theorem Rooted.nodup_walkFrom (h : t.Rooted) (bound : Nat) (id : ItemId) :
    (t.walkFrom bound id).Nodup := by
  induction bound generalizing id with
  | zero => exact List.nodup_nil
  | succ bound ih =>
    rw [walkFrom_succ, List.nodup_cons, List.nodup_flatMap]
    refine ⟨fun hmem => ?_, fun c _ => ih c, ?_⟩
    · obtain ⟨c, hc, hid⟩ := List.mem_flatMap.1 hmem
      exact absurd (h.le_of_under (under_of_mem_walkFrom hid)) (Nat.not_le.2 (h.index_lt hc))
    · refine (h.nodup id).imp_of_mem fun {a b} ha hb hne => ?_
      intro x hxa hxb
      exact hne (h.eq_of_under_siblings ha hb (under_of_mem_walkFrom hxa)
        (under_of_mem_walkFrom hxb))

/-- The walk meets no item twice. -/
theorem Rooted.nodup_walk (h : t.Rooted) : t.walk.Nodup := h.nodup_walkFrom t.size root

/-! ### One visit for each item -/

section Visits

variable {ε : Type} {step : ItemTree → ItemId → Except ε ItemTree} {I : ItemTree → Prop}
  (hlocal : ∀ t₁ t₂ id, step t₁ id = .ok t₂ → ∀ x, x ≠ id → t₂.item x = t₁.item x)
  (hkeep : ∀ t₁ t₂, ∀ id ∈ l, I t₁ → step t₁ id = .ok t₂ → I t₂)
include hlocal hkeep

/-- A pass that changes one item after another finds each as it was, and leaves what it has made of
it. -/
theorem foldlM_visits (hn : l.Nodup) (hstart : I t) (h : l.foldlM step t = .ok t') :
    I t' ∧ (∀ x ∉ l, t'.item x = t.item x) ∧
      ∀ x ∈ l, ∃ t₁ t₂, I t₁ ∧ t₁.item x = t.item x ∧ step t₁ x = .ok t₂ ∧
        t'.item x = t₂.item x := by
  refine foldlM_ok (fun done t' => I t' ∧ (∀ x ∉ done, t'.item x = t.item x) ∧
    ∀ x ∈ done, ∃ t₁ t₂, I t₁ ∧ t₁.item x = t.item x ∧ step t₁ x = .ok t₂ ∧
      t'.item x = t₂.item x) h ⟨hstart, fun _ _ => rfl, by simp⟩
    fun done id rest t₁ t₂ hl ⟨hI, hpending, hdone⟩ hstep => ?_
  have hnew : id ∉ done := by
    rw [hl] at hn
    exact fun hmem => (List.nodup_append.1 hn).2.2 id hmem id List.mem_cons_self rfl
  refine ⟨hkeep t₁ t₂ id (by rw [hl]; simp) hI hstep, fun x hx => ?_, fun x hx => ?_⟩
  · rw [List.mem_append, List.mem_singleton, not_or] at hx
    rw [hlocal t₁ t₂ id hstep x hx.2]
    exact hpending x hx.1
  · rcases List.mem_append.1 hx with hx | hx
    · obtain ⟨t₃, t₄, hI₃, hitem, hstep₃, he⟩ := hdone x hx
      have hne : x ≠ id := fun he => hnew (he ▸ hx)
      exact ⟨t₃, t₄, hI₃, hitem, hstep₃, (hlocal t₁ t₂ id hstep x hne).trans he⟩
    · rw [List.mem_singleton.1 hx]
      exact ⟨t₁, t₂, hI, hpending id hnew, hstep, rfl⟩

/-- A pass that fails does so at an item that is still as it was. -/
theorem foldlM_fails (hn : l.Nodup) (hstart : I t) {e : ε} (h : l.foldlM step t = .error e) :
    ∃ x ∈ l, ∃ t₁, I t₁ ∧ t₁.item x = t.item x ∧ step t₁ x = .error e := by
  obtain ⟨done, id, rest, t₁, hl, ⟨hI, hpending⟩, herror⟩ :=
    foldlM_error (fun done t' => I t' ∧ ∀ x ∉ done, t'.item x = t.item x) h
      ⟨hstart, fun _ _ => rfl⟩ fun done id rest t₁ t₂ hl ⟨hI, hpending⟩ hstep => by
        refine ⟨hkeep t₁ t₂ id (by rw [hl]; simp) hI hstep, fun x hx => ?_⟩
        rw [List.mem_append, List.mem_singleton, not_or] at hx
        rw [hlocal t₁ t₂ id hstep x hx.2]
        exact hpending x hx.1
  have hnew : id ∉ done := by
    rw [hl] at hn
    exact fun hmem => (List.nodup_append.1 hn).2.2 id hmem id List.mem_cons_self rfl
  exact ⟨id, by rw [hl]; simp, t₁, hI, hpending id hnew, herror⟩

end Visits

end Schemata.ItemTree
