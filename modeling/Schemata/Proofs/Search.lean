import Mathlib.Data.List.Basic
import Mathlib.Data.List.Perm.Subperm
import Mathlib.Logic.Equiv.Defs
import Mathlib.Logic.Relation
import Schemata.Search

/-! Searches with a large enough bound are complete.

With a bound no smaller than the number of nodes that the search can meet, `reach`
lists exactly what can be reached along successors (`mem_reach_iff`). With a bound
beyond the number of nodes that lead on, `chase` finds the end of a chain exactly
when there is one (`chase_eq_ended_iff`). -/
namespace Schemata.Search

variable {ν ρ : Type}

/-! ### Everything reachable -/

section Reach

variable {next : ν → List ν}

/-- Every successor of a node is in the list as well. -/
def Closed (next : ν → List ν) (nodes : List ν) : Prop :=
  ∀ x ∈ nodes, ∀ y ∈ next x, y ∈ nodes

/-- What is known after a walk that had met `seen` before it: nothing is forgotten, and whatever is
new has all of its successors met as well. -/
structure Explored (next : ν → List ν) (seen found : List ν) : Prop where
  kept : ∀ x ∈ seen, x ∈ found
  closed : ∀ x ∈ found, x ∉ seen → ∀ y ∈ next x, y ∈ found

theorem Explored.refl (seen : List ν) : Explored next seen seen :=
  ⟨fun _ h => h, fun _ h hn => absurd h hn⟩

theorem Explored.trans {a b c : List ν} (hab : Explored next a b) (hbc : Explored next b c) :
    Explored next a c := by
  refine ⟨fun x hx => hbc.kept x (hab.kept x hx), fun x hx hn y hy => ?_⟩
  by_cases hb : x ∈ b
  · exact hbc.kept y (hab.closed x hb hn y hy)
  · exact hbc.closed x hx hb y hy

variable [DecidableEq ν]

/-- The nodes that have not been met. -/
def unmet (nodes seen : List ν) : List ν := nodes.filter fun x => x ∉ seen

theorem unmet_length_le (nodes : List ν) {seen seen' : List ν} (h : ∀ x ∈ seen, x ∈ seen') :
    (unmet nodes seen').length ≤ (unmet nodes seen).length := by
  unfold unmet
  refine (List.monotone_filter_right nodes fun x hx => ?_).length_le
  simp only [decide_eq_true_eq] at hx ⊢
  exact fun hmem => hx (h x hmem)

theorem unmet_length_lt {nodes seen : List ν} {x : ν} (hx : x ∈ nodes) (hs : x ∉ seen) :
    (unmet nodes (seen ++ [x])).length < (unmet nodes seen).length := by
  have hsub : (unmet nodes (seen ++ [x])).Sublist (unmet nodes seen) := by
    refine List.monotone_filter_right nodes fun y hy => ?_
    simp only [decide_eq_true_eq, List.mem_append, not_or] at hy ⊢
    exact hy.1
  refine Nat.lt_of_le_of_ne hsub.length_le fun heq => ?_
  have hmem : x ∈ unmet nodes (seen ++ [x]) := by
    rw [hsub.eq_of_length heq]
    exact List.mem_filter.2 ⟨hx, by simpa using hs⟩
  simp [unmet] at hmem

theorem foldl_visit_explored (nodes : List ν) (bound : Nat)
    (hvisit : ∀ (seen : List ν) (x : ν), x ∈ nodes → (unmet nodes seen).length ≤ bound →
      Explored next seen (visit next bound seen x) ∧ x ∈ visit next bound seen x)
    (l : List ν) (seen : List ν) (hl : ∀ x ∈ l, x ∈ nodes)
    (hb : (unmet nodes seen).length ≤ bound) :
    Explored next seen (l.foldl (visit next bound) seen) ∧
      ∀ x ∈ l, x ∈ l.foldl (visit next bound) seen := by
  induction l generalizing seen with
  | nil => exact ⟨Explored.refl seen, by simp⟩
  | cons x rest ih =>
    obtain ⟨hx, hmem⟩ := hvisit seen x (hl x List.mem_cons_self) hb
    obtain ⟨hrest, hall⟩ := ih (visit next bound seen x)
      (fun y hy => hl y (List.mem_cons_of_mem x hy))
      (Nat.le_trans (unmet_length_le nodes hx.kept) hb)
    refine ⟨hx.trans hrest, fun y hy => ?_⟩
    rcases List.mem_cons.1 hy with rfl | hy
    · exact hrest.kept y hmem
    · exact hall y hy

/-- One visit explores its node, if the bound covers what has not been met. -/
theorem visit_explored {nodes : List ν} (hu : Closed next nodes) (bound : Nat)
    (seen : List ν) (x : ν) (hx : x ∈ nodes) (hb : (unmet nodes seen).length ≤ bound) :
    Explored next seen (visit next bound seen x) ∧ x ∈ visit next bound seen x := by
  induction bound generalizing seen x with
  | zero =>
    have hnil : unmet nodes seen = [] := List.length_eq_zero_iff.1 (Nat.le_zero.1 hb)
    have hmem : x ∈ seen := by
      by_contra hn
      have : x ∈ unmet nodes seen := List.mem_filter.2 ⟨hx, by simpa using hn⟩
      rw [hnil] at this
      cases this
    exact ⟨Explored.refl seen, hmem⟩
  | succ bound ih =>
    simp only [visit]
    by_cases hs : x ∈ seen
    · rw [if_pos hs]
      exact ⟨Explored.refl seen, hs⟩
    · rw [if_neg hs]
      have hlt := unmet_length_lt hx hs
      obtain ⟨hfold, hall⟩ := foldl_visit_explored nodes bound ih (next x) (seen ++ [x])
        (hu x hx) (by omega)
      have hself : x ∈ (next x).foldl (visit next bound) (seen ++ [x]) :=
        hfold.kept x (by simp)
      refine ⟨⟨fun y hy => hfold.kept y (by simp [hy]), fun y hy hn z hz => ?_⟩, hself⟩
      by_cases hyx : y = x
      · subst hyx
        exact hall z hz
      · exact hfold.closed y hy (by simp [hn, hyx]) z hz

/-- `y` is a node of the search from `starts`. -/
def Reachable (next : ν → List ν) (starts : List ν) (y : ν) : Prop :=
  ∃ x ∈ starts, Relation.ReflTransGen (fun a b => b ∈ next a) x y

theorem visit_sound (bound : Nat) (seen : List ν) (x y : ν)
    (hy : y ∈ visit next bound seen x) : y ∈ seen ∨ Reachable next [x] y := by
  induction bound generalizing seen x with
  | zero => exact .inl hy
  | succ bound ih =>
    have fold : ∀ (l seen : List ν), y ∈ l.foldl (visit next bound) seen →
        y ∈ seen ∨ Reachable next l y := by
      intro l
      induction l with
      | nil => intro seen h; exact .inl h
      | cons z rest ihl =>
        intro seen h
        rcases ihl _ h with h | ⟨w, hw, hwy⟩
        · rcases ih seen z h with h | ⟨w, hw, hwy⟩
          · exact .inl h
          · exact .inr ⟨w, by simp_all, hwy⟩
        · exact .inr ⟨w, List.mem_cons_of_mem z hw, hwy⟩
    simp only [visit] at hy
    split at hy
    · exact .inl hy
    · rcases fold _ _ hy with h | ⟨w, hw, hwy⟩
      · rcases List.mem_append.1 h with h | h
        · exact .inl h
        · exact .inr ⟨x, by simp, by rw [List.mem_singleton.1 h]⟩
      · exact .inr ⟨x, by simp, .head hw hwy⟩

theorem reach_sound (bound : Nat) (starts : List ν) {y : ν} (hy : y ∈ reach next bound starts) :
    Reachable next starts y := by
  have fold : ∀ (l seen : List ν), y ∈ l.foldl (visit next bound) seen →
      y ∈ seen ∨ Reachable next l y := by
    intro l
    induction l with
    | nil => intro seen h; exact .inl h
    | cons z rest ih =>
      intro seen h
      rcases ih _ h with h | ⟨w, hw, hwy⟩
      · rcases visit_sound bound seen z y h with h | ⟨w, hw, hwy⟩
        · exact .inl h
        · exact .inr ⟨w, by simp_all, hwy⟩
      · exact .inr ⟨w, List.mem_cons_of_mem z hw, hwy⟩
  rcases fold starts [] hy with h | h
  · cases h
  · exact h

/-- **What `reach` lists.** A bound that covers all nodes makes it list exactly what can be
reached. -/
theorem mem_reach_iff {nodes : List ν} (hu : Closed next nodes) {bound : Nat}
    (hb : nodes.length ≤ bound) {starts : List ν} (hs : ∀ x ∈ starts, x ∈ nodes) (y : ν) :
    y ∈ reach next bound starts ↔ Reachable next starts y := by
  refine ⟨reach_sound bound starts, ?_⟩
  rintro ⟨x, hx, hxy⟩
  have hnew : (unmet nodes []).length ≤ bound := Nat.le_trans (List.length_filter_le _ _) hb
  obtain ⟨hex, hall⟩ := foldl_visit_explored nodes bound (visit_explored hu bound) starts [] hs
    hnew
  induction hxy with
  | refl => exact hall x hx
  | tail _ hstep ih => exact hex.closed _ ih List.not_mem_nil _ hstep

end Reach

/-! ### Single successors -/

section Chase

variable {step : ν → Step ν ρ}

/-- The chain from a node ends by itself, with this result. -/
inductive Ends (step : ν → Step ν ρ) : ν → ρ → Prop
  | halt {x : ν} {r : ρ} (h : step x = .halt r) : Ends step x r
  | go {x y : ν} {r : ρ} (h : step x = .go y) (hy : Ends step y r) : Ends step x r

theorem Ends.unique {x : ν} {r r' : ρ} (h : Ends step x r) (h' : Ends step x r') : r = r' := by
  induction h with
  | halt h =>
    cases h' with
    | halt h' => rw [h] at h'; cases h'; rfl
    | go h' _ => rw [h] at h'; cases h'
  | go h _ ih =>
    cases h' with
    | halt h' => rw [h] at h'; cases h'
    | go h' hy' => rw [h] at h'; cases h'; exact ih hy'

/-- One node comes right after another. -/
def Follows (step : ν → Step ν ρ) (x y : ν) : Prop := step x = .go y

/-- A chain that ends does not come back to where it was. -/
theorem Ends.acyclic {x : ν} {r : ρ} (h : Ends step x r) :
    ¬Relation.TransGen (Follows step) x x := by
  induction h with
  | halt h =>
    intro hc
    obtain ⟨y, hy, _⟩ := Relation.TransGen.head'_iff.1 hc
    rw [Follows, h] at hy
    cases hy
  | @go x y r h _ ih =>
    intro hc
    obtain ⟨z, hz, hzx⟩ := Relation.TransGen.head'_iff.1 hc
    rw [Follows, h] at hz
    cases hz
    exact ih (Relation.TransGen.tail' hzx h)

/-- Further along a chain the end is the same. -/
theorem Ends.follow {x y : ν} {r : ρ} (h : Ends step x r)
    (hxy : Relation.ReflTransGen (Follows step) x y) : Ends step y r := by
  induction hxy with
  | refl => exact h
  | tail _ hyz ih =>
    cases ih with
    | halt hstep => rw [Follows, hstep] at hyz; cases hyz
    | go hstep hy => rw [Follows, hstep] at hyz; cases hyz; exact hy

theorem ends_iff_of_go {x y : ν} {r : ρ} (h : step x = .go y) : Ends step x r ↔ Ends step y r :=
  ⟨fun hx => hx.follow (.single h), .go h⟩

/-- A chain that stays among nodes from which another step goes the same way ends as before. -/
theorem Ends.congr_on {step' : ν → Step ν ρ} {P : ν → Prop} (hstep : ∀ x, P x → step' x = step x)
    (hP : ∀ x y, P x → step x = .go y → P y) {x : ν} {r : ρ} (hx : P x) (h : Ends step x r) :
    Ends step' x r := by
  induction h with
  | halt h => exact .halt ((hstep _ hx).trans h)
  | go h _ ih => exact .go ((hstep _ hx).trans h) (ih (hP _ _ hx h))

/-- A step between nodes and results of other names. -/
def Step.rename {ν' ρ' : Type} (f : ν → ν') (g : ρ → ρ') : Step ν ρ → Step ν' ρ'
  | halt r => halt (g r)
  | go x => go (f x)

/-- Chains of steps that go the same way end in the same way. -/
theorem Ends.rename {ν' ρ' : Type} {step' : ν' → Step ν' ρ'} {f : ν → ν'} {g : ρ → ρ'} {x : ν}
    {r : ρ} (hstep : ∀ x, step' (f x) = (step x).rename f g) (h : Ends step x r) :
    Ends step' (f x) (g r) := by
  induction h with
  | @halt x r h => exact .halt ((hstep x).trans (by rw [h]; rfl))
  | @go x y r h _ ih => exact .go ((hstep x).trans (by rw [h]; rfl)) ih

theorem ends_rename_iff {step' : ν → Step ν ρ} {σ : Equiv.Perm ν} {x : ν} {r : ρ}
    (hstep : ∀ x, step' (σ x) = (step x).rename σ id) : Ends step' (σ x) r ↔ Ends step x r := by
  have hback : ∀ y, step (σ.symm y) = (step' y).rename σ.symm id := fun y => by
    obtain ⟨x, rfl⟩ := σ.surjective y
    rw [hstep, σ.symm_apply_apply]
    cases step x <;> simp [Step.rename]
  refine ⟨fun h => ?_, .rename hstep⟩
  have hends := h.rename hback
  rwa [σ.symm_apply_apply] at hends

/-- Where a chain halts at once with what it would have come to, all chains end as before. -/
theorem Ends.shortcut {step' : ν → Step ν ρ} {x₀ : ν} {r₀ : ρ}
    (hsame : ∀ x, x ≠ x₀ → step' x = step x) (hhalt : step' x₀ = .halt r₀) (h₀ : Ends step x₀ r₀)
    (x : ν) (r : ρ) : Ends step' x r ↔ Ends step x r := by
  constructor
  · intro h
    induction h with
    | @halt x r h =>
      by_cases hx : x = x₀
      · subst hx
        rw [hhalt] at h
        cases h
        exact h₀
      · exact .halt ((hsame x hx).symm.trans h)
    | @go x y r h _ ih =>
      have hx : x ≠ x₀ := by
        rintro rfl
        rw [hhalt] at h
        cases h
      exact .go ((hsame x hx).symm.trans h) ih
  · intro h
    induction h with
    | @halt x r h =>
      by_cases hx : x = x₀
      · subst hx
        rw [(Ends.halt h).unique h₀]
        exact .halt hhalt
      · exact .halt ((hsame x hx).trans h)
    | @go x y r h hy ih =>
      by_cases hx : x = x₀
      · subst hx
        rw [(Ends.go h hy).unique h₀]
        exact .halt hhalt
      · exact .go ((hsame x hx).trans h) ih

/-- What a chain passes comes to what the chain comes to. -/
theorem Ends.of_mem_trail {bound : Nat} {x y : ν} {r : ρ} (h : Ends step x r)
    (hy : y ∈ trail step bound x) : Ends step y r := by
  induction bound generalizing x with
  | zero => cases hy
  | succ bound ih =>
    unfold trail at hy
    split at hy
    · obtain rfl := List.mem_singleton.1 hy
      exact h
    · next z hz =>
      rcases List.mem_cons.1 hy with rfl | hy
      · exact h
      · exact ih ((ends_iff_of_go hz).1 h) hy

theorem mem_trail (bound : Nat) (x : ν) : x ∈ trail step (bound + 1) x := by
  unfold trail
  split <;> exact List.mem_cons_self

theorem trail_of_halt {x : ν} {r : ρ} (h : step x = .halt r) (bound : Nat) :
    trail step (bound + 1) x = [x] := by
  unfold trail
  rw [h]

variable [DecidableEq ν]

theorem chaseFrom_sound {bound : Nat} {seen : List ν} {x : ν} {r : ρ}
    (h : chaseFrom step bound seen x = .ended r) : Ends step x r := by
  induction bound generalizing seen x with
  | zero => cases h
  | succ bound ih =>
    simp only [chaseFrom] at h
    split at h
    · next hs => cases h; exact .halt hs
    · next y hs =>
      split at h
      · cases h
      · exact .go hs (ih h)

/-- A bound beyond the number of nodes is met by a chain that comes back only. -/
theorem chaseFrom_looped {nodes : List ν} (hgo : ∀ x y, step x = .go y → x ∈ nodes)
    {bound : Nat} {seen : List ν} {x y : ν} (h : chaseFrom step bound seen x = .looped y)
    (hn : seen.Nodup)
    (hs : ∀ z ∈ seen, z ∈ nodes ∧ Relation.TransGen (Follows step) z x)
    (hb : nodes.length < bound + seen.length) :
    Relation.ReflTransGen (Follows step) x y ∧ Relation.TransGen (Follows step) y y := by
  induction bound generalizing seen x with
  | zero =>
    have hle := (List.subperm_of_subset hn fun z hz => (hs z hz).1).length_le
    omega
  | succ bound ih =>
    simp only [chaseFrom] at h
    split at h
    · cases h
    · next z hstep =>
      split at h
      · next hmem =>
        cases h
        exact ⟨.refl, (hs _ hmem).2⟩
      · next hnew =>
        have hall : ∀ w ∈ x :: seen, w ∈ nodes ∧ Relation.TransGen (Follows step) w z :=
          fun w hw => by
            rcases List.mem_cons.1 hw with rfl | hw
            · exact ⟨hgo _ z hstep, .single hstep⟩
            · exact ⟨(hs w hw).1, (hs w hw).2.tail hstep⟩
        obtain ⟨hzy, hyy⟩ := ih h (List.nodup_cons.2 ⟨hnew, hn⟩) hall
          (by simp only [List.length_cons]; omega)
        exact ⟨.head hstep hzy, hyy⟩

theorem chase_looped {nodes : List ν} (hgo : ∀ x y, step x = .go y → x ∈ nodes) {bound : Nat}
    (hb : nodes.length < bound) {x y : ν} (h : chase step bound x = .looped y) :
    Relation.ReflTransGen (Follows step) x y ∧ Relation.TransGen (Follows step) y y :=
  chaseFrom_looped hgo h List.nodup_nil (by simp) (by simpa using hb)

/-- **What `chase` finds.** A bound beyond the number of nodes that lead on makes it find the end of
every chain that has one. -/
theorem chase_eq_ended_iff {nodes : List ν} (hgo : ∀ x y, step x = .go y → x ∈ nodes) {bound : Nat}
    (hb : nodes.length < bound) (x : ν) (r : ρ) :
    chase step bound x = .ended r ↔ Ends step x r := by
  refine ⟨chaseFrom_sound, fun h => ?_⟩
  cases hc : chase step bound x with
  | ended r' => rw [(chaseFrom_sound hc).unique h]
  | looped y =>
    obtain ⟨hxy, hyy⟩ := chase_looped hgo hb hc
    exact absurd hyy (h.follow hxy).acyclic

/-- A chain among finitely many nodes ends, or it comes to a node that it comes back to. -/
theorem ends_or_circles {nodes : List ν} (hgo : ∀ x y, step x = .go y → x ∈ nodes) (x : ν) :
    (∃ r, Ends step x r) ∨
      ∃ y, Relation.ReflTransGen (Follows step) x y ∧ Relation.TransGen (Follows step) y y := by
  have hb : nodes.length < nodes.length + 1 := Nat.lt_succ_self _
  cases hc : chase step (nodes.length + 1) x with
  | ended r => exact .inl ⟨r, chaseFrom_sound hc⟩
  | looped y => exact .inr ⟨y, chase_looped hgo hb hc⟩

end Chase

end Schemata.Search
