import Mathlib.Algebra.GroupWithZero.Nat
import Mathlib.Data.Nat.Log

/-! Whole numbers as doubles have them.

A double has 53 significant bits. A whole number that needs more is replaced by the nearest
one that does not, and of two that are as near by the one whose last bit is zero (`rounded`).
Rounding keeps the order of two numbers but may make them equal; up to the size `2 ^ 53` it
changes nothing. -/
namespace Schemata.Number

variable {n u q a b : Nat} {i j : Int}

/-! ### Quotients -/

/-- The whole number nearest to `n / u`, and the even one of two that are as near. -/
def nearestQuotient (n u : Nat) : Nat :=
  if 2 * (n % u) < u then n / u
  else if u < 2 * (n % u) then n / u + 1
  else n / u + n / u % 2

theorem le_nearestQuotient : n / u ≤ nearestQuotient n u := by
  unfold nearestQuotient
  split
  · omega
  · split <;> omega

theorem nearestQuotient_le : nearestQuotient n u ≤ n / u + 1 := by
  unfold nearestQuotient
  split
  · omega
  · split <;> omega

theorem nearestQuotient_of_dvd (hu : 0 < u) (h : u ∣ n) : nearestQuotient n u = n / u := by
  rw [nearestQuotient, Nat.mod_eq_zero_of_dvd h, if_pos (by omega)]

theorem nearestQuotient_mono (h : a ≤ b) :
    nearestQuotient a u ≤ nearestQuotient b u := by
  have hdiv : a / u ≤ b / u := Nat.div_le_div_right h
  rcases hdiv.lt_or_eq with hlt | heq
  · exact nearestQuotient_le.trans (hlt.trans_le le_nearestQuotient)
  · -- of the same multiple, it is the rests that are compared
    have hmod : a % u ≤ b % u := by
      have ha := Nat.div_add_mod a u
      have hb := Nat.div_add_mod b u
      rw [heq] at ha
      omega
    unfold nearestQuotient
    rw [heq]
    split_ifs <;> omega

theorem nearestQuotient_mul (hq : 0 < q) :
    nearestQuotient (n * q) (u * q) = nearestQuotient n u := by
  have hassoc : 2 * (n % u * q) = 2 * (n % u) * q := (Nat.mul_assoc 2 _ q).symm
  simp only [nearestQuotient, Nat.mul_mod_mul_right, Nat.mul_div_mul_right _ _ hq, hassoc,
    Nat.mul_lt_mul_right hq]

/-! ### Numbers without a sign -/

/-- How far apart the doubles are that are next to a number of this size. -/
def spacing (n : Nat) : Nat := 2 ^ (n.log2 - 52)

/-- A whole number without a sign as a double has it. -/
def roundedSize (n : Nat) : Nat := nearestQuotient n (spacing n) * spacing n

theorem spacing_pos (n : Nat) : 0 < spacing n := Nat.two_pow_pos _

theorem spacing_of_lt (h : n < 2 ^ 53) : spacing n = 1 := by
  have hlog : n.log2 ≤ 52 := by
    rcases Nat.eq_zero_or_pos n with rfl | hn
    · decide
    · exact Nat.lt_succ_iff.1 ((Nat.log2_lt hn.ne').2 h)
  rw [spacing, Nat.sub_eq_zero_of_le hlog, Nat.pow_zero]

theorem roundedSize_of_dvd (h : spacing n ∣ n) : roundedSize n = n := by
  rw [roundedSize, nearestQuotient_of_dvd (spacing_pos n) h, Nat.div_mul_cancel h]

/-- Up to the size `2 ^ 53` all whole numbers are doubles. -/
theorem roundedSize_of_le (h : n ≤ 2 ^ 53) : roundedSize n = n := by
  rcases h.lt_or_eq with hlt | rfl
  · exact roundedSize_of_dvd (spacing_of_lt hlt ▸ Nat.one_dvd n)
  · decide

theorem log2_mul_two_pow (hn : n ≠ 0) (t : Nat) : (n * 2 ^ t).log2 = n.log2 + t := by
  refine (Nat.log2_eq_iff (Nat.mul_ne_zero hn (Nat.two_pow_pos t).ne')).2 ⟨?_, ?_⟩
  · rw [Nat.pow_add]
    exact Nat.mul_le_mul_right _ (Nat.log2_self_le hn)
  · rw [Nat.add_right_comm, Nat.pow_add]
    exact Nat.mul_lt_mul_of_pos_right Nat.lt_log2_self (Nat.two_pow_pos t)

/-- Only the significant bits matter. -/
theorem roundedSize_mul_two_pow (n t : Nat) : roundedSize (n * 2 ^ t) = roundedSize n * 2 ^ t := by
  rcases Nat.eq_zero_or_pos n with rfl | hn
  · rw [Nat.zero_mul, roundedSize_of_le (Nat.zero_le _), Nat.zero_mul]
  have hlog := log2_mul_two_pow hn.ne' t
  rcases Nat.le_total n.log2 52 with hle | hle
  · have hn53 : n < 2 ^ 53 := (Nat.log2_lt hn.ne').1 (by omega)
    have hdvd : spacing (n * 2 ^ t) ∣ n * 2 ^ t :=
      Nat.dvd_trans (Nat.pow_dvd_pow 2 (by omega)) (Nat.dvd_mul_left _ n)
    rw [roundedSize_of_dvd hdvd, roundedSize_of_le hn53.le]
  · have hspacing : spacing (n * 2 ^ t) = spacing n * 2 ^ t := by
      rw [spacing, hlog, spacing, ← Nat.pow_add]
      congr 1
      omega
    rw [roundedSize, hspacing, nearestQuotient_mul (Nat.two_pow_pos t), ← Nat.mul_assoc,
      roundedSize]

/-- Rounding does not lead past a power of two. -/
theorem roundedSize_le (n : Nat) : roundedSize n ≤ 2 ^ (n.log2 + 1) := by
  have hdvd : spacing n ∣ 2 ^ (n.log2 + 1) := Nat.pow_dvd_pow 2 (by omega)
  have hlt : n / spacing n < 2 ^ (n.log2 + 1) / spacing n :=
    Nat.div_lt_div_of_lt_of_dvd hdvd Nat.lt_log2_self
  calc roundedSize n ≤ (n / spacing n + 1) * spacing n :=
        Nat.mul_le_mul_right _ nearestQuotient_le
    _ ≤ 2 ^ (n.log2 + 1) / spacing n * spacing n := Nat.mul_le_mul_right _ hlt
    _ = 2 ^ (n.log2 + 1) := Nat.div_mul_cancel hdvd

theorem le_roundedSize (hn : n ≠ 0) : 2 ^ n.log2 ≤ roundedSize n := by
  have hdvd : spacing n ∣ 2 ^ n.log2 := Nat.pow_dvd_pow 2 (by omega)
  calc 2 ^ n.log2 = 2 ^ n.log2 / spacing n * spacing n := (Nat.div_mul_cancel hdvd).symm
    _ ≤ n / spacing n * spacing n :=
        Nat.mul_le_mul_right _ (Nat.div_le_div_right (Nat.log2_self_le hn))
    _ ≤ roundedSize n := Nat.mul_le_mul_right _ le_nearestQuotient

theorem roundedSize_mono (h : a ≤ b) : roundedSize a ≤ roundedSize b := by
  rcases Nat.eq_zero_or_pos a with rfl | ha
  · exact Nat.zero_le _
  have hb : b ≠ 0 := by omega
  have hlog : a.log2 ≤ b.log2 := (Nat.le_log2 hb).2 ((Nat.log2_self_le ha.ne').trans h)
  rcases hlog.lt_or_eq with hlt | heq
  · -- a power of two lies between the two
    calc roundedSize a ≤ 2 ^ (a.log2 + 1) := roundedSize_le a
      _ ≤ 2 ^ b.log2 := Nat.pow_le_pow_right Nat.two_pos hlt
      _ ≤ roundedSize b := le_roundedSize hb
  · have hspacing : spacing a = spacing b := by rw [spacing, heq, spacing]
    rw [roundedSize, roundedSize, hspacing]
    exact Nat.mul_le_mul_right _ (nearestQuotient_mono h)

/-! ### Numbers with a sign -/

/-- A whole number as a double has it. -/
def rounded (i : Int) : Int :=
  if 0 ≤ i then roundedSize i.natAbs else -roundedSize i.natAbs

theorem rounded_of_natAbs_le (h : i.natAbs ≤ 2 ^ 53) : rounded i = i := by
  rw [rounded, roundedSize_of_le h]
  split <;> omega

/-- Rounding keeps the order. -/
theorem rounded_mono (h : i ≤ j) : rounded i ≤ rounded j := by
  unfold rounded
  split_ifs with hi hj hj
  · exact Int.ofNat_le.2 (roundedSize_mono (by omega))
  · omega
  · omega
  · exact Int.neg_le_neg (Int.ofNat_le.2 (roundedSize_mono (by omega)))

/-- A number of less than the size `2 ^ 53` is compared as it is, with whatever other number. -/
theorem rounded_le_rounded_iff (h : i.natAbs < 2 ^ 53 ∨ j.natAbs < 2 ^ 53) :
    rounded i ≤ rounded j ↔ i ≤ j := by
  refine ⟨fun hle => ?_, rounded_mono⟩
  by_contra hlt
  -- the next number towards the other one is a double of its own
  rcases h with h | h
  · have hj : rounded j ≤ rounded (i - 1) := rounded_mono (by omega)
    have hself : rounded i = i := rounded_of_natAbs_le (by omega)
    have hpred : rounded (i - 1) = i - 1 := rounded_of_natAbs_le (by omega)
    omega
  · have hi : rounded (j + 1) ≤ rounded i := rounded_mono (by omega)
    have hself : rounded j = j := rounded_of_natAbs_le (by omega)
    have hsucc : rounded (j + 1) = j + 1 := rounded_of_natAbs_le (by omega)
    omega

end Schemata.Number
