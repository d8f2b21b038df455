/-! Searches in finite graphs.

A graph is given by the list of successors of a node. `reach` lists what can be
reached from some nodes, each node once, in the order in which a depth-first
walk first meets it. `chase` follows single successors until the walk ends by
itself or comes back to a node it has already left.

Both take a bound: for `reach` on the number of different nodes, for `chase` on
the number of steps. With a bound that large the walks are complete. -/
namespace Schemata.Search

variable {ν ρ : Type} [DecidableEq ν]

/-! ### Everything reachable -/

/-- What has been met once `x` and what hangs below it is met too. -/
def visit (next : ν → List ν) : Nat → List ν → ν → List ν
  | 0, seen, _ => seen
  | bound + 1, seen, x =>
    if x ∈ seen then seen else (next x).foldl (visit next bound) (seen ++ [x])

/-- Everything reachable from `starts`, in order of first visit. -/
def reach (next : ν → List ν) (bound : Nat) (starts : List ν) : List ν :=
  starts.foldl (visit next bound) []

/-! ### Single successors -/

/-- How a chain of single successors goes on at a node. -/
inductive Step (ν ρ : Type)
  | halt (result : ρ)
  | go (node : ν)

/-- How a chain of single successors ends. -/
inductive Course (ν ρ : Type)
  | ended (result : ρ)
  /-- The first node met for the second time. -/
  | looped (node : ν)

/-- Follows the chain from `x`, having left the nodes in `seen`. -/
def chaseFrom (step : ν → Step ν ρ) : Nat → List ν → ν → Course ν ρ
  | 0, _, x => .looped x
  | bound + 1, seen, x =>
    match step x with
    | .halt result => .ended result
    | .go y => if x ∈ seen then .looped x else chaseFrom step bound (x :: seen) y

def chase (step : ν → Step ν ρ) (bound : Nat) (x : ν) : Course ν ρ := chaseFrom step bound [] x

/-- The first so many nodes on the chain from `x`. -/
def trail (step : ν → Step ν ρ) : Nat → ν → List ν
  | 0, _ => []
  | bound + 1, x =>
    match step x with
    | .halt _ => [x]
    | .go y => x :: trail step bound y

/-! ### First facts -/

theorem subset_visit (next : ν → List ν) (bound : Nat) (seen : List ν) (x : ν) :
    ∀ y ∈ seen, y ∈ visit next bound seen x := by
  induction bound generalizing seen x with
  | zero => intro y hy; exact hy
  | succ bound ih =>
    have fold : ∀ (l seen : List ν), ∀ y ∈ seen, y ∈ l.foldl (visit next bound) seen := by
      intro l
      induction l with
      | nil => intro seen y hy; exact hy
      | cons z rest ihl => intro seen y hy; exact ihl _ y (ih seen z y hy)
    intro y hy
    simp only [visit]
    split
    · exact hy
    · exact fold _ _ y (List.mem_append_left _ hy)

theorem nodup_visit (next : ν → List ν) (bound : Nat) (seen : List ν) (x : ν)
    (h : seen.Nodup) : (visit next bound seen x).Nodup := by
  induction bound generalizing seen x with
  | zero => exact h
  | succ bound ih =>
    have fold : ∀ (l seen : List ν), seen.Nodup → (l.foldl (visit next bound) seen).Nodup := by
      intro l
      induction l with
      | nil => intro seen hs; exact hs
      | cons z rest ihl => intro seen hs; exact ihl _ (ih seen z hs)
    simp only [visit]
    split
    · exact h
    · next hx =>
      refine fold _ _ (List.nodup_append.2 ⟨h, by simp, ?_⟩)
      intro a ha b hb hab
      exact hx (by simp_all)

/-- No node is listed twice. -/
theorem nodup_reach (next : ν → List ν) (bound : Nat) (starts : List ν) :
    (reach next bound starts).Nodup := by
  have fold : ∀ (l seen : List ν), seen.Nodup → (l.foldl (visit next bound) seen).Nodup := by
    intro l
    induction l with
    | nil => intro seen hs; exact hs
    | cons z rest ihl => intro seen hs; exact ihl _ (nodup_visit next bound seen z hs)
  exact fold starts [] List.nodup_nil

end Schemata.Search
