import Schemata.Failure

/-! How often something may occur.

An arity is a least and a greatest number of occurrences, the latter absent when
there is no limit. The bounds make sense by construction: the greatest is
positive and not below the least. `Arity.ofBounds` is the way in for bounds that
come from outside. -/
namespace Schemata

structure Arity where
  min : Nat
  /-- The greatest number, `none` without a limit. -/
  max : Option Nat
  bounds : ∀ m ∈ max, 0 < m ∧ min ≤ m
deriving DecidableEq

namespace Arity

/-! ### The four usual ones -/

def one : Arity := ⟨1, some 1, by simp⟩
def optional : Arity := ⟨0, some 1, by simp⟩
def zeroOrMore : Arity := ⟨0, none, by simp⟩
def oneOrMore : Arity := ⟨1, none, by simp⟩

instance : Inhabited Arity := ⟨one⟩

/-! ### Writing -/

/-- Bounds as written after a type name: nothing for exactly one, a sign for the usual ones,
else the numbers in braces. -/
def boundsText : Nat → Option Nat → String
  | 1, some 1 => ""
  | 0, some 1 => "?"
  | 0, none => "*"
  | 1, none => "+"
  | min, none => "\x7b" ++ toString min ++ ",\x7d"
  | min, some max => "\x7b" ++ toString min ++ "," ++ toString max ++ "\x7d"

def render (a : Arity) : String := boundsText a.min a.max

/-! ### Reading -/

/-- The arity with these bounds, if they make one. -/
def ofBounds (min : Nat) : Option Nat → Except Cause Arity
  | none => .ok ⟨min, none, by simp⟩
  | some max =>
    if h₀ : max = 0 then
      .error (.invalidArity (boundsText min (some max)) "the maximum must be greater than zero")
    else if h : max < min then
      .error (.invalidArity (boundsText min (some max))
        "the maximum must not be less than the minimum")
    else .ok ⟨min, some max, by simp; omega⟩

/-! ### Questions -/

def isExactlyOne (a : Arity) : Bool := a = one
/-- No occurrence is allowed too. -/
def isOptional (a : Arity) : Bool := a.min = 0
/-- More than one occurrence is allowed. -/
def isCollection (a : Arity) : Bool := a.max.all (1 < ·)
/-- At most one occurrence is allowed. -/
def isSingle (a : Arity) : Bool := a.max = some 1

@[ext] theorem ext {a b : Arity} (hmin : a.min = b.min) (hmax : a.max = b.max) : a = b := by
  cases a; cases b; simp_all

theorem isSingle_eq_not_isCollection (a : Arity) : a.isSingle = !a.isCollection := by
  cases h : a.max with
  | none => simp [isSingle, isCollection, h]
  | some m =>
    have := (a.bounds m (by simp [h])).1
    by_cases hm : m = 1
    · simp [isSingle, isCollection, h, hm]
    · have : 1 < m := by omega
      simp [isSingle, isCollection, h, hm, this]

/-- Bounds are accepted exactly when they satisfy the two rules, and are then kept. -/
theorem ofBounds_eq_ok_iff {min : Nat} {max : Option Nat} {a : Arity} :
    ofBounds min max = .ok a ↔ a.min = min ∧ a.max = max := by
  constructor
  · intro h
    cases max with
    | none => cases h; exact ⟨rfl, rfl⟩
    | some m =>
      simp only [ofBounds] at h
      split at h
      · cases h
      · split at h
        · cases h
        · cases h; exact ⟨rfl, rfl⟩
  · rintro ⟨rfl, rfl⟩
    cases h : a.max with
    | none => exact congrArg Except.ok (ext rfl h.symm)
    | some m =>
      have hb := a.bounds m (by simp [h])
      have h₀ : m ≠ 0 := by omega
      have h₁ : ¬m < a.min := by omega
      simp only [ofBounds, h₀, h₁, dite_false]
      exact congrArg Except.ok (ext rfl h.symm)

end Arity
end Schemata
