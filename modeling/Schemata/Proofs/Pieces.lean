import Mathlib.Data.List.TakeWhile
import Schemata.Text.Split

/-! Texts and their pieces.

A text is split at a separator in one way only: its pieces are the list without
separators in it that joins to the text (`split_eq_iff`). It is cut at the first
separator, so that none stands before it (`cut_eq_some_iff`). -/
namespace Schemata.Text

variable {c : Char} {s piece rest : List Char} {pieces : List (List Char)}

/-! ### Splitting -/

theorem split_of_not_mem (h : c ∉ s) : split (· == c) s = [s] := by
  induction s with
  | nil => rfl
  | cons d s ih =>
    obtain ⟨hd, hs⟩ := List.ne_and_not_mem_of_not_mem_cons h
    have hrest := ih hs
    simp only [split, List.cons.injEq] at hrest
    simp [split, splitPieces, Ne.symm hd, hrest]

theorem split_append (h : c ∉ piece) :
    split (· == c) (piece ++ c :: rest) = piece :: split (· == c) rest := by
  induction piece with
  | nil => simp [split, splitPieces]
  | cons d piece ih =>
    obtain ⟨hd, hpiece⟩ := List.ne_and_not_mem_of_not_mem_cons h
    have hrest := ih hpiece
    simp only [split, List.cons.injEq] at hrest
    simp [split, splitPieces, Ne.symm hd, hrest]

/-- No piece of a split has a separator. -/
theorem not_mem_of_split (h : piece ∈ split (· == c) s) : c ∉ piece := by
  induction s generalizing piece with
  | nil => simp_all [split, splitPieces]
  | cons d s ih =>
    by_cases hd : d = c
    · rw [split_cons_of_sep _ _ (by simpa using hd), List.mem_cons] at h
      rcases h with rfl | h
      · exact List.not_mem_nil
      · exact ih h
    · have hsep : (d == c) = false := beq_false_of_ne hd
      simp only [split, splitPieces, hsep, Bool.false_eq_true, if_false, List.mem_cons] at h
      rcases h with rfl | h
      · exact List.not_mem_cons_of_ne_of_not_mem (Ne.symm hd) (ih List.mem_cons_self)
      · exact ih (List.mem_cons_of_mem _ h)

/-- Pieces without separators come back from the text that joins them. -/
theorem split_join (hne : pieces ≠ []) (hpieces : ∀ piece ∈ pieces, c ∉ piece) :
    split (· == c) (join c pieces) = pieces := by
  induction pieces with
  | nil => exact absurd rfl hne
  | cons piece others ih =>
    have hpiece : c ∉ piece := hpieces piece List.mem_cons_self
    cases others with
    | nil => exact split_of_not_mem hpiece
    | cons next others =>
      rw [join_cons (List.cons_ne_nil next others), split_append hpiece,
        ih (List.cons_ne_nil next others) fun p hp => hpieces p (List.mem_cons_of_mem piece hp)]

theorem join_concat (hne : pieces ≠ []) :
    join c (pieces ++ [piece]) = join c pieces ++ c :: piece := by
  induction pieces with
  | nil => exact absurd rfl hne
  | cons first others ih =>
    cases others with
    | nil => rfl
    | cons next others =>
      rw [List.cons_append, join_cons (by simp), ih (List.cons_ne_nil next others),
        join_cons (List.cons_ne_nil next others), List.append_assoc]
      rfl

theorem split_eq_iff :
    split (· == c) s = pieces ↔
      pieces ≠ [] ∧ (∀ piece ∈ pieces, c ∉ piece) ∧ join c pieces = s := by
  constructor
  · rintro rfl
    exact ⟨split_ne_nil _ s, fun piece hpiece => not_mem_of_split hpiece, join_split c s⟩
  · rintro ⟨hne, hpieces, rfl⟩
    exact split_join hne hpieces

/-! ### Cutting -/

variable {sep : Char → Bool} {before after : List Char}

theorem cut_append (hpiece : ∀ d ∈ piece, sep d = false) (hc : sep c) :
    cut sep (piece ++ c :: rest) = some (piece, rest) := by
  have hd : ∀ d ∈ piece, (!sep d) = true := fun d hd => by rw [hpiece d hd]; rfl
  unfold cut
  rw [List.dropWhile_append_of_pos hd, List.takeWhile_append_of_pos hd,
    List.dropWhile_cons_of_neg (by simp [hc]), List.takeWhile_cons_of_neg (by simp [hc]),
    List.append_nil]

theorem cut_eq_some_iff :
    cut sep s = some (before, after) ↔
      ∃ c, sep c ∧ (∀ d ∈ before, sep d = false) ∧ s = before ++ c :: after := by
  constructor
  · intro h
    unfold cut at h
    split at h
    · cases h
    · next c rest hrest =>
      have hc := List.head_dropWhile_not (!sep ·) (l := s) (by simp [hrest])
      simp only [hrest, List.head_cons, Bool.not_eq_false'] at hc
      cases h
      exact ⟨c, hc, fun d hd => by simpa using List.mem_takeWhile_imp hd,
        by rw [← hrest, List.takeWhile_append_dropWhile]⟩
  · rintro ⟨c, hc, hbefore, rfl⟩
    exact cut_append hbefore hc

theorem cut_eq_none_iff : cut sep s = none ↔ ∀ d ∈ s, sep d = false := by
  unfold cut
  split
  · next h => simpa [List.dropWhile_eq_nil_iff] using h
  · next c rest h =>
    have hc := List.head_dropWhile_not (!sep ·) (l := s) (by simp [h])
    simp only [h, List.head_cons, Bool.not_eq_false'] at hc
    have hmem : c ∈ s := List.dropWhile_subset (!sep ·) (h ▸ List.mem_cons_self)
    simp only [reduceCtorEq, false_iff, not_forall]
    exact ⟨c, hmem, by simp [hc]⟩

end Schemata.Text
