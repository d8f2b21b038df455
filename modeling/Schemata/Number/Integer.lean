/-! Whole numbers of 64 bits as text.

A whole number is an optional sign and at least one ASCII digit. Reading goes
from left to right and reports the first thing that is wrong: a character that
is no digit, or the digit with which the number leaves the range. A sign alone
counts as a character that is no digit. -/
namespace Schemata.Number

/-- Why a text is no whole number. -/
inductive IntegerFault
  | empty
  | invalidDigit
  | tooLarge
  | tooSmall
deriving DecidableEq, Repr

def IntegerFault.message : IntegerFault → String
  | empty => "cannot parse integer from empty string"
  | invalidDigit => "invalid digit found in string"
  | tooLarge => "number too large to fit in target type"
  | tooSmall => "number too small to fit in target type"

def digitValue (c : Char) : Nat := c.toNat - '0'.toNat

/-- The number that a list of digits writes. -/
def digitsValue (ds : List Char) : Nat := ds.foldl (fun n c => 10 * n + digitValue c) 0

/-- Reads digits behind those that make `n`, and stops with `overflow` above `limit`. -/
def readMagnitude (limit : Nat) (overflow : IntegerFault) (n : Nat) :
    List Char → Except IntegerFault Nat
  | [] => .ok n
  | c :: rest =>
    if c.isDigit then
      let m := 10 * n + digitValue c
      if m ≤ limit then readMagnitude limit overflow m rest else .error overflow
    else .error .invalidDigit

/-- Digits that write no more than `2 ^ 63 - 1`. -/
def readPositive (ds : List Char) : Except IntegerFault Int64 :=
  (readMagnitude (Nat.pow 2 63 - 1) .tooLarge 0 ds).map fun n => Int64.ofInt n

/-- Digits that write no more than `2 ^ 63`, behind a minus sign. -/
def readNegative (ds : List Char) : Except IntegerFault Int64 :=
  (readMagnitude (Nat.pow 2 63) .tooSmall 0 ds).map fun n => Int64.ofInt (-n)

def readInteger : List Char → Except IntegerFault Int64
  | [] => .error .empty
  | ['+'] => .error .invalidDigit
  | ['-'] => .error .invalidDigit
  | '+' :: ds => readPositive ds
  | '-' :: ds => readNegative ds
  | ds => readPositive ds

/-- All digits were read, and the number stayed within the limit. -/
theorem readMagnitude_eq_ok_iff {limit n m : Nat} {overflow : IntegerFault} {ds : List Char}
    (hn : n ≤ limit) :
    readMagnitude limit overflow n ds = .ok m ↔
      (∀ c ∈ ds, c.isDigit = true) ∧ m = ds.foldl (fun n c => 10 * n + digitValue c) n ∧
        m ≤ limit := by
  have grows : ∀ (ds : List Char) (k : Nat),
      k ≤ ds.foldl (fun n c => 10 * n + digitValue c) k := by
    intro ds
    induction ds with
    | nil => intro k; exact Nat.le_refl k
    | cons c rest ih => intro k; exact Nat.le_trans (by omega) (ih (10 * k + digitValue c))
  induction ds generalizing n with
  | nil => simp only [readMagnitude, Except.ok.injEq, List.foldl_nil]; constructor
           · rintro rfl; exact ⟨by simp, rfl, hn⟩
           · rintro ⟨_, rfl, _⟩; rfl
  | cons c rest ih =>
    by_cases hc : c.isDigit = true
    · by_cases hm : 10 * n + digitValue c ≤ limit
      · simp only [readMagnitude, hc, if_true, hm, ih hm, List.foldl_cons, List.mem_cons,
          forall_eq_or_imp, true_and]
      · simp only [readMagnitude, hc, if_true, hm, if_false, List.foldl_cons]
        constructor
        · intro h; cases h
        · rintro ⟨_, rfl, hle⟩
          exact absurd (Nat.le_trans (grows rest _) hle) hm
    · simp only [readMagnitude, hc]
      constructor
      · intro h; cases h
      · rintro ⟨h, _⟩
        exact absurd (h c (List.mem_cons_self ..)) hc

end Schemata.Number
