import Mathlib.Data.List.ReduceOption
import Schemata.Proofs.Search

/-! Depth-first walks.

Edges lead to nodes or nowhere. A walk meets next what the latest node with a new
target leads to, and of its new targets the first one (`nextMet`); so there is one
depth-first order of what can be reached (`DepthFirst.unique`). A loop finds it with
a stack of what is still to come, on which a node may lie more than once, and the
list of what it has met (`Turn`): below the targets of a node that are still to come
lie those of the nodes met before it (`Pending`). `reach` lists what the loop ends
with. -/
namespace Schemata.Search

variable {ν : Type}

/-! ### Edges -/

section Edges

variable {edges : ν → List (Option ν)} {x y : ν}

/-- The nodes that the edges of a node lead to, in order. -/
def targets (edges : ν → List (Option ν)) (x : ν) : List ν := (edges x).reduceOption

theorem mem_targets : y ∈ targets edges x ↔ some y ∈ edges x := List.reduceOption_mem_iff

variable [DecidableEq ν]

/-- What a walk that has met some nodes meets next: the first new target of the latest of them that
has one. -/
def nextMet (edges : ν → List (Option ν)) (met : List ν) : Option ν :=
  met.reverse.findSome? fun x => (targets edges x).find? (· ∉ met)

/-- What a walk from `start` may have met so far. -/
inductive Walked (edges : ν → List (Option ν)) (start : ν) : List ν → Prop
  | first : Walked edges start [start]
  | next {met : List ν} {y : ν} (h : Walked edges start met) (hy : nextMet edges met = some y) :
    Walked edges start (met ++ [y])

/-- All nodes that can be reached from `start`, in the order in which a depth-first walk first meets
them. -/
structure DepthFirst (edges : ν → List (Option ν)) (start : Option ν) (order : List ν) : Prop where
  starts : order.head? = start
  nodup : order.Nodup
  mem_iff : ∀ y, y ∈ order ↔ Reachable (targets edges) start.toList y
  walked : ∀ x, start = some x → Walked edges x order

/-- One turn of a depth-first loop, with its stack and what it has met: what leads nowhere and what
has been met before is dropped from the stack, and the edges of a new node take its place. -/
inductive Turn (edges : ν → List (Option ν)) :
    List (Option ν) × List ν → List (Option ν) × List ν → Prop
  | dangling {stack : List (Option ν)} {met : List ν} : Turn edges (none :: stack, met) (stack, met)
  | again {x : ν} {stack : List (Option ν)} {met : List ν} (h : x ∈ met) :
    Turn edges (some x :: stack, met) (stack, met)
  | meet {x : ν} {stack : List (Option ν)} {met : List ν} (h : x ∉ met) :
    Turn edges (some x :: stack, met) (edges x ++ stack, met ++ [x])

end Edges

/-! ### There is one depth-first order -/

section Order

variable {edges : ν → List (Option ν)} {start : ν} {l l' : List ν}

/-- What stands somewhere in a list with a last node is that node or stands before it. -/
theorem last_or_before {before after : List ν} {x y : ν} (h : l ++ [x] = before ++ y :: after) :
    (l = before ∧ x = y) ∨ ∃ rest, l = before ++ y :: rest := by
  rcases List.eq_nil_or_concat after with rfl | ⟨rest, w, rfl⟩
  · obtain ⟨hl, hx⟩ := List.append_inj' h rfl
    exact .inl ⟨hl, List.singleton_inj.1 hx⟩
  · rw [List.concat_eq_append, ← List.cons_append, ← List.append_assoc] at h
    exact .inr ⟨rest, (List.append_inj' h rfl).1⟩

/-- What is ahead of an order of the same nodes is that order. -/
theorem eq_of_ahead (h : l <+: l') (hn : l'.Nodup) (hmem : ∀ y ∈ l', y ∈ l) : l = l' := by
  obtain ⟨rest, rfl⟩ := h
  cases rest with
  | nil => exact (List.append_nil l).symm
  | cons y rest =>
    have hy : y ∈ l := hmem y (by simp)
    exact absurd rfl ((List.nodup_append.1 hn).2.2 y hy y List.mem_cons_self)

variable [DecidableEq ν]

theorem Walked.ne_nil (h : Walked edges start l) : l ≠ [] := by
  cases h <;> simp

theorem Walked.head? (h : Walked edges start l) : l.head? = some start := by
  induction h with
  | first => rfl
  | next h _ ih => rw [List.head?_append, ih, Option.some_or]

/-- Every node but the first has been met as the next one. -/
theorem Walked.nextMet_of_append (h : Walked edges start l) {before after : List ν} {y : ν}
    (hl : l = before ++ y :: after) (hne : before ≠ []) : nextMet edges before = some y := by
  induction h generalizing after with
  | first =>
    obtain ⟨x, rest, rfl⟩ := List.exists_cons_of_ne_nil hne
    simp at hl
  | @next met z h hz ih =>
    rcases last_or_before hl with ⟨rfl, rfl⟩ | ⟨rest, hmet⟩
    · exact hz
    · exact ih hmet

/-- Of two walks from one node one is ahead of the other. -/
theorem Walked.prefix_total (h : Walked edges start l) (h' : Walked edges start l') :
    l <+: l' ∨ l' <+: l := by
  induction h with
  | first =>
    obtain ⟨x, rest, rfl⟩ := List.exists_cons_of_ne_nil h'.ne_nil
    cases h'.head?
    exact .inl ⟨rest, rfl⟩
  | @next met y h hy ih =>
    rcases ih with ⟨rest, hrest⟩ | hle
    · cases rest with
      | nil => exact .inr ⟨[y], by rw [← hrest, List.append_nil]⟩
      | cons z rest =>
        have hz := h'.nextMet_of_append hrest.symm h.ne_nil
        obtain rfl : y = z := Option.some.inj (hy.symm.trans hz)
        exact .inl ⟨rest, by rw [← hrest, List.append_assoc]; rfl⟩
    · exact .inr (hle.trans (List.prefix_append met [y]))

theorem DepthFirst.unique {start : Option ν} (h : DepthFirst edges start l)
    (h' : DepthFirst edges start l') : l = l' := by
  have hmem : ∀ y, y ∈ l ↔ y ∈ l' := fun y => (h.mem_iff y).trans (h'.mem_iff y).symm
  cases start with
  | none => rw [List.head?_eq_none_iff.1 h.starts, List.head?_eq_none_iff.1 h'.starts]
  | some x =>
    rcases (h.walked x rfl).prefix_total (h'.walked x rfl) with hle | hle
    · exact eq_of_ahead hle h'.nodup fun y hy => (hmem y).2 hy
    · exact (eq_of_ahead hle h.nodup fun y hy => (hmem y).1 hy).symm

end Order

/-! ### What the loop meets -/

section Loop

variable {edges : ν → List (Option ν)} {start x y : ν} {e : Option ν} {met met' nodes : List ν}
  {stack : List (Option ν)} {s s' : List (Option ν) × List ν}

/-- What is still to come: of the edges of each node, the latest one first, those after some edges
that lead to nothing new. -/
inductive Pending (edges : ν → List (Option ν)) (met : List ν) : List ν → List (Option ν) → Prop
  | nil : Pending edges met [] []
  | cons {x : ν} {older : List ν} {passed rest below stack : List (Option ν)}
    (hedges : edges x = passed ++ rest) (hpassed : ∀ w, some w ∈ passed → w ∈ met)
    (hstack : stack = rest ++ below) (h : Pending edges met older below) :
    Pending edges met (x :: older) stack

theorem Pending.mono (h : Pending edges met nodes stack) (hsub : ∀ w ∈ met, w ∈ met') :
    Pending edges met' nodes stack := by
  induction h with
  | nil => exact .nil
  | cons hedges hpassed hstack _ ih =>
    exact .cons hedges (fun w hw => hsub w (hpassed w hw)) hstack ih

/-- Once what is on top is dealt with, the rest is still to come. -/
theorem Pending.drop (h : Pending edges met nodes (e :: stack)) (hsub : ∀ w ∈ met, w ∈ met')
    (he : ∀ w, e = some w → w ∈ met') : Pending edges met' nodes stack := by
  generalize hl : e :: stack = l at h
  induction h with
  | nil => cases hl
  | @cons x older passed rest below l hedges hpassed hstack h ih =>
    cases rest with
    | nil =>
      exact .cons hedges (fun w hw => hsub w (hpassed w hw)) (List.nil_append stack).symm
        (ih (hl.trans hstack))
    | cons e' rest =>
      obtain ⟨rfl, rfl⟩ := List.cons.inj (hl.trans hstack)
      have hpass : edges x = (passed ++ [e]) ++ rest := hedges.trans (List.append_cons _ _ _)
      refine .cons hpass (fun w hw => ?_) rfl (h.mono hsub)
      rcases List.mem_append.1 hw with hw | hw
      · exact hsub w (hpassed w hw)
      · exact he w (List.mem_singleton.1 hw).symm

variable [DecidableEq ν]

/-- What is on top is due to the latest node that has a new target. -/
theorem Pending.findSome? (h : Pending edges met nodes (some y :: stack)) (hy : y ∉ met) :
    nodes.findSome? (fun x => (targets edges x).find? (· ∉ met)) = some y := by
  generalize hl : some y :: stack = l at h
  induction h with
  | nil => cases hl
  | @cons x older passed rest below l hedges hpassed hstack h ih =>
    have hnone : passed.reduceOption.find? (· ∉ met) = none :=
      List.find?_eq_none.2 fun w hw => by
        simpa using hpassed w (List.reduceOption_mem_iff.1 hw)
    rw [List.findSome?_cons]
    unfold targets
    cases rest with
    | nil =>
      rw [hedges, List.append_nil, hnone]
      exact ih (hl.trans hstack)
    | cons e' rest =>
      obtain ⟨rfl, _⟩ := List.cons.inj (hl.trans hstack)
      rw [hedges, List.reduceOption_append, List.find?_append, hnone,
        List.reduceOption_cons_of_some, List.find?_cons_of_pos (by simpa using hy)]
      rfl

/-- The loop has met what a walk may have met, and has still to come what these nodes lead to. -/
structure Halfway (edges : ν → List (Option ν)) (start : ν) (s : List (Option ν) × List ν) :
    Prop where
  walked : Walked edges start s.2
  pending : Pending edges s.2 s.2.reverse s.1

/-- The first turn meets the start. -/
theorem halfway_first (edges : ν → List (Option ν)) (start : ν) :
    Halfway edges start (edges start, [start]) where
  walked := .first
  pending := .cons (List.nil_append _).symm (by simp) (List.append_nil _).symm .nil

theorem Halfway.turn (h : Halfway edges start s) (ht : Turn edges s s') :
    Halfway edges start s' := by
  cases ht with
  | dangling => exact ⟨h.walked, h.pending.drop (fun _ hw => hw) (by simp)⟩
  | again hx =>
    refine ⟨h.walked, h.pending.drop (fun _ hw => hw) fun w hw => ?_⟩
    cases hw
    exact hx
  | @meet x stack met hx =>
    refine ⟨h.walked.next (h.pending.findSome? hx), ?_⟩
    rw [List.reverse_append]
    refine .cons (List.nil_append _).symm (by simp) rfl ?_
    exact h.pending.drop (fun w hw => List.mem_append_left [x] hw) (by simp)

theorem Halfway.run (h : Halfway edges start s) (hrun : Relation.ReflTransGen (Turn edges) s s') :
    Halfway edges start s' := by
  induction hrun with
  | refl => exact h
  | tail _ ht ih => exact ih.turn ht

/-- All turns from the start come to what a walk may have met. -/
theorem walked_of_run {order : List ν}
    (h : Relation.ReflTransGen (Turn edges) ([some start], []) ([], order)) :
    Walked edges start order := by
  rcases Relation.ReflTransGen.cases_head h with he | ⟨s, hfirst, hrest⟩
  · cases he
  · have hs : s = (edges start, [start]) := by
      cases hfirst with
      | again hx => cases hx
      | meet _ => rw [List.append_nil, List.nil_append]
    exact ((halfway_first edges start).run (hs ▸ hrest)).walked

end Loop

/-! ### What the loop comes to -/

section Reach

variable [DecidableEq ν] {edges : ν → List (Option ν)} {nodes : List ν} {bound : Nat}

/-- The loop deals with a part of its stack, whatever lies below it. -/
def Clears (edges : ν → List (Option ν)) (top : List (Option ν)) (met met' : List ν) : Prop :=
  ∀ stack, Relation.ReflTransGen (Turn edges) (top ++ stack, met) (stack, met')

theorem clears_foldl_visit
    (hvisit : ∀ (seen : List ν) (x : ν), x ∈ nodes → (unmet nodes seen).length ≤ bound →
      Clears edges [some x] seen (visit (targets edges) bound seen x))
    (l : List (Option ν)) (seen : List ν) (hl : ∀ x, some x ∈ l → x ∈ nodes)
    (hb : (unmet nodes seen).length ≤ bound) :
    Clears edges l seen (l.reduceOption.foldl (visit (targets edges) bound) seen) := by
  induction l generalizing seen with
  | nil => exact fun _ => .refl
  | cons e rest ih =>
    have hrest : ∀ x, some x ∈ rest → x ∈ nodes := fun x hx => hl x (List.mem_cons_of_mem e hx)
    intro stack
    cases e with
    | none => exact .head .dangling (ih seen hrest hb stack)
    | some x =>
      have hle := unmet_length_le nodes (subset_visit (targets edges) bound seen x)
      exact (hvisit seen x (hl x List.mem_cons_self) hb (rest ++ stack)).trans
        (ih _ hrest (Nat.le_trans hle hb) stack)

/-- A visit does what the loop does with a node, if the bound covers what has not been met. -/
theorem clears_visit (hu : Closed (targets edges) nodes) (bound : Nat) (seen : List ν) (x : ν)
    (hx : x ∈ nodes) (hb : (unmet nodes seen).length ≤ bound) :
    Clears edges [some x] seen (visit (targets edges) bound seen x) := by
  induction bound generalizing seen x with
  | zero =>
    -- with nothing unmet the node has been met before
    have hmem : x ∈ seen := (visit_explored hu 0 seen x hx hb).2
    exact fun _ => .single (.again hmem)
  | succ bound ih =>
    simp only [visit]
    by_cases hs : x ∈ seen
    · rw [if_pos hs]
      exact fun _ => .single (.again hs)
    · rw [if_neg hs]
      have hlt := unmet_length_lt hx hs
      have hfold := clears_foldl_visit ih (edges x) (seen ++ [x])
        (fun y hy => hu x hx y (mem_targets.2 hy)) (by omega)
      exact fun stack => .head (.meet hs) (hfold stack)

variable (hu : Closed (targets edges) nodes) (hb : nodes.length ≤ bound) {start : Option ν}
  (hs : ∀ x ∈ start, x ∈ nodes)
include hu hb hs

/-- The loop ends with what `reach` lists. -/
theorem run_reach : Relation.ReflTransGen (Turn edges) ([start], [])
    ([], reach (targets edges) bound start.toList) := by
  have hnew : (unmet nodes []).length ≤ bound := Nat.le_trans (List.length_filter_le _ _) hb
  have hclears := clears_foldl_visit (clears_visit hu bound) [start] []
    (fun x hx => hs x (List.mem_singleton.1 hx).symm) hnew []
  cases start <;> exact hclears

theorem depthFirst_reach :
    DepthFirst edges start (reach (targets edges) bound start.toList) := by
  have hwalked : ∀ x, start = some x →
      Walked edges x (reach (targets edges) bound start.toList) := fun x hx => by
    have hrun := run_reach hu hb hs
    subst hx
    exact walked_of_run hrun
  refine ⟨?_, nodup_reach _ _ _, mem_reach_iff hu hb fun x hx => hs x (Option.mem_toList.1 hx),
    hwalked⟩
  cases start with
  | none => rfl
  | some x => exact (hwalked x rfl).head?

end Reach

end Schemata.Search
