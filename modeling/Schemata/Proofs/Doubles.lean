import Mathlib
import Schemata.Proofs.Rounding

/-! Whole numbers as doubles.

A double is computed with in its unpacked form, a sign, a significand and an exponent. The
double that a whole number of less than 65 bits becomes stands for that number rounded, and
doubles that stand for whole numbers are compared as those numbers are (`ofInt_lt_ofInt_iff`). -/
namespace Schemata.Number

open Float.Model Float.Model.UnpackedFloat

variable {m n s b : Nat} {i j : Int} {x y : UnpackedFloat} {sign : Sign}

/-! ### Shifting -/

/-- What is left of a significand that was shifted to the right: the whole part, and in two bits
how the rest compares to one half. -/
structure Shifted (em : ExtendedMantissa) (n s : Nat) : Prop where
  mantissa : em.mantissa = n / 2 ^ s
  round : em.roundBit = true ↔ 2 ^ s ≤ 2 * (n % 2 ^ s)
  sticky : em.stickyBit = true ↔ 2 * (n % 2 ^ s) ≠ 0 ∧ 2 * (n % 2 ^ s) ≠ 2 ^ s

theorem Shifted.shiftRightOne {em : ExtendedMantissa} (h : Shifted em n s) :
    Shifted em.shiftRightOne n (s + 1) := by
  have hpow : 2 ^ (s + 1) = 2 * 2 ^ s := Nat.pow_succ'
  have hlt : n % 2 ^ s < 2 ^ s := Nat.mod_lt _ (Nat.two_pow_pos s)
  have hmod : n % 2 ^ (s + 1) = n % 2 ^ s + 2 ^ s * (n / 2 ^ s % 2) := Nat.mod_pow_succ
  have hbit := Nat.mod_two_eq_zero_or_one (n / 2 ^ s)
  constructor
  · rw [ExtendedMantissa.shiftRightOne, h.mantissa, Nat.div_div_eq_div_mul, Nat.pow_succ]
  · rw [ExtendedMantissa.shiftRightOne, h.mantissa, bne_iff_ne, hmod, hpow]
    rcases hbit with hbit | hbit <;> rw [hbit] <;> omega
  · rw [ExtendedMantissa.shiftRightOne, Bool.or_eq_true, h.round, h.sticky, hmod, hpow]
    rcases hbit with hbit | hbit <;> rw [hbit] <;> omega

theorem shifted (n s : Nat) : Shifted (ExtendedMantissa.mk n false false >>> s) n s := by
  induction s with
  | zero => exact ⟨(Nat.div_one n).symm, by simp [Nat.mod_one]; rfl, by simp [Nat.mod_one]; rfl⟩
  | succ s ih => exact ih.shiftRightOne

/-- The two bits are enough to round to the nearest whole number. -/
theorem Shifted.roundedMantissa {em : ExtendedMantissa} (h : Shifted em n s) :
    em.roundedMantissa = nearestQuotient n (2 ^ s) := by
  obtain ⟨m, r, t⟩ := em
  obtain ⟨rfl, hround, hsticky⟩ := h
  unfold nearestQuotient ExtendedMantissa.roundedMantissa ExtendedMantissa.accuracy
    Accuracy.roundToNearestEven
  cases r <;> cases t <;> simp at hround hsticky ⊢ <;> split_ifs <;> omega

/-! ### Doubles with all their bits -/

/-- What a finite double stands for. -/
def worth : UnpackedFloat → ℚ
  | .finite sign m e _ => sign.apply m * 2 ^ e
  | _ => 0

/-- A zero, or a double of 53 significant bits within the exponents of a double. -/
inductive Normal : UnpackedFloat → Prop
  | zero (sign : Sign) : Normal (.zero sign)
  | finite (sign : Sign) {m : Nat} {e : Int} (hm : 0 < m) (hlow : 2 ^ 52 ≤ m) (hhigh : m < 2 ^ 53)
      (hleast : -1074 ≤ e) (hgreatest : e ≤ 971) : Normal (.finite sign m e hm)

theorem log2_of_significand (hlow : 2 ^ 52 ≤ m) (hhigh : m < 2 ^ 53) : m.log2 = 52 :=
  (Nat.log2_eq_iff (by omega)).2 ⟨hlow, hhigh⟩

/-- The first of the 53 bits is not stored, but implied. -/
theorem implied_append (hlow : 2 ^ 52 ≤ m) (hhigh : m < 2 ^ 53) :
    (1#1 ++ BitVec.ofNat 52 m).toNat = m := by
  rw [BitVec.toNat_append, ← Nat.shiftLeft_add_eq_or_of_lt (BitVec.isLt _)]
  simp only [BitVec.toNat_ofNat, Nat.shiftLeft_eq]
  omega

theorem pack_finite {hm : 0 < m} (hlow : 2 ^ 52 ≤ m) (hhigh : m < 2 ^ 53) (hb : b ≤ 2046) :
    UnpackedFloat.pack Format.binary64 (.finite sign m (b - 1075) hm) =
      packComponents Format.binary64 sign (BitVec.ofNat 11 b) (BitVec.ofNat 52 m) := by
  have hbiased : ((b : Int) - 1075 + Format.binary64.exponentBias +
      Format.binary64.mantissaBitsWithoutImplicit).toNat = b := by
    simp only [Format.exponentBias]
    omega
  have hfits : ¬2 ^ Format.binary64.exponentBits ≤ b + 1 := fun h : 2048 ≤ b + 1 => by omega
  have hfull : m.log2 + 1 = Format.binary64.mantissaBits := by
    rw [log2_of_significand hlow hhigh]
    rfl
  simp only [UnpackedFloat.pack, hbiased, if_neg hfits, if_pos hfull]

theorem unpack_finite {hm : 0 < m} (hlow : 2 ^ 52 ≤ m) (hhigh : m < 2 ^ 53) (hpos : 0 < b)
    (hb : b ≤ 2046) :
    UnpackedFloat.unpack Format.binary64
        (packComponents Format.binary64 sign (BitVec.ofNat 11 b) (BitVec.ofNat 52 m)) =
      .finite sign m (b - 1075) hm := by
  have hbits : (BitVec.ofNat 11 b).toNat = b := by
    rw [BitVec.toNat_ofNat, Nat.mod_eq_of_lt (by omega)]
  have hone : BitVec.ofNat 11 b ≠ -1#11 := by
    rw [ne_eq, ← BitVec.toNat_inj, hbits]
    exact fun h : b = 2047 => by omega
  have hzero : BitVec.ofNat 11 b ≠ 0#11 := by
    rw [ne_eq, ← BitVec.toNat_inj, hbits]
    exact hpos.ne'
  simp only [UnpackedFloat.unpack, unpackExponent_packComponents, unpackMantissa_packComponents,
    unpackSign_packComponents, Sign.ofBitVec_toBitVec, if_neg hone, if_neg hzero,
    implied_append hlow hhigh, hbits]
  rfl

/-- A double with all its bits is stored without loss. -/
theorem Normal.unpack_pack (h : Normal x) : (Float.Model.pack x).unpack = x := by
  cases h with
  | zero sign => exact unpack_packedZero
  | @finite sign m e hm hlow hhigh hleast hgreatest =>
    obtain ⟨b, rfl⟩ : ∃ b : Nat, e = b - 1075 := ⟨(e + 1075).toNat, by omega⟩
    change UnpackedFloat.unpack Format.binary64 (UnpackedFloat.pack Format.binary64 _) = _
    rw [pack_finite hlow hhigh (by omega), unpack_finite hlow hhigh (by omega) (by omega)]

/-- The larger exponent wins, whatever the significands are. -/
theorem size_lt_size_of_lt {e f : Int} (hm : m < 2 ^ 53) (hn : 2 ^ 52 ≤ n) (h : e < f) :
    (m : ℚ) * 2 ^ e < n * 2 ^ f :=
  calc (m : ℚ) * 2 ^ e < 2 ^ 53 * 2 ^ e :=
        mul_lt_mul_of_pos_right (by exact_mod_cast hm) (by positivity)
    _ = 2 ^ 52 * 2 ^ (e + 1) := by rw [zpow_add_one₀ two_ne_zero]; ring
    _ ≤ n * 2 ^ f :=
        mul_le_mul (by exact_mod_cast hn) (zpow_le_zpow_right₀ one_le_two (by omega))
          (by positivity) (by positivity)

/-- Whole numbers of at most 53 bits have 53 exponents. -/
theorem exponent_bounds {e : Int} (hlow : 2 ^ 52 ≤ m) (hhigh : m < 2 ^ 53)
    (hn : (m : ℚ) * 2 ^ e = n) (h : n < 2 ^ 53) : -52 ≤ e ∧ e ≤ 0 := by
  constructor
  · by_contra hlt
    have hunit : ((2 ^ 52 : Nat) : ℚ) * 2 ^ (-52 : Int) = 1 := by norm_num
    have hsmall := size_lt_size_of_lt hhigh (le_refl (2 ^ 52)) (by omega : e < -52)
    have hpos : (0 : ℚ) < m * 2 ^ e := by positivity
    rw [hn, hunit, Nat.cast_lt_one] at hsmall
    rw [hn, Nat.cast_pos] at hpos
    omega
  · by_contra hgt
    have hlarge : (n : ℚ) * 2 ^ (0 : Int) < m * 2 ^ e := size_lt_size_of_lt h hlow (by omega)
    simp [hn] at hlarge

theorem size_lt_size_iff {e f : Int} (hm : 2 ^ 52 ≤ m) (hm' : m < 2 ^ 53) (hn : 2 ^ 52 ≤ n)
    (hn' : n < 2 ^ 53) : (m : ℚ) * 2 ^ e < n * 2 ^ f ↔ e < f ∨ e = f ∧ m < n := by
  rcases lt_trichotomy e f with hlt | rfl | hgt
  · simp [size_lt_size_of_lt hm' hn hlt, hlt]
  · rw [mul_lt_mul_iff_left₀ (by positivity), Nat.cast_lt]
    simp
  · have hge : ¬(m : ℚ) * 2 ^ e < n * 2 ^ f := (size_lt_size_of_lt hn' hm hgt).not_gt
    simp [hge, hgt.le, hgt.ne']

theorem worth_positive {e : Int} {hm : 0 < m} : worth (.finite .positive m e hm) = m * 2 ^ e := by
  simp [worth, Sign.apply]

theorem worth_negative {e : Int} {hm : 0 < m} :
    worth (.finite .negative m e hm) = -(m * 2 ^ e) := by
  simp [worth, Sign.apply]

theorem positive_lt_positive_iff {e f : Int} {hm : 0 < m} {hn : 0 < n} :
    UnpackedFloat.lt (.finite .positive m e hm) (.finite .positive n f hn) = true ↔
      e < f ∨ e = f ∧ m < n := by
  simp [UnpackedFloat.lt, UnpackedFloat.compare, Ordering.then_eq_lt, compare_lt_iff_lt]

theorem negative_lt_negative_iff {e f : Int} {hm : 0 < m} {hn : 0 < n} :
    UnpackedFloat.lt (.finite .negative m e hm) (.finite .negative n f hn) = true ↔
      f < e ∨ f = e ∧ n < m := by
  rw [eq_comm (a := f)]
  simp [UnpackedFloat.lt, UnpackedFloat.compare, Ordering.then_eq_gt, compare_gt_iff_gt]

/-- Doubles with all their bits are compared as what they stand for. -/
theorem Normal.lt_iff (hx : Normal x) (hy : Normal y) : x.lt y = true ↔ worth x < worth y := by
  have hpos : ∀ {m : Nat} (e : Int), 0 < m → (0 : ℚ) < m * 2 ^ e := by
    intro m e hm
    positivity
  cases hx with
  | zero sign =>
    cases hy with
    | zero sign => simp [UnpackedFloat.lt, UnpackedFloat.compare, worth]
    | @finite sign n f hn =>
      cases sign
      · rw [worth_negative]
        exact iff_of_false (by simp [UnpackedFloat.lt, UnpackedFloat.compare])
          (neg_neg_of_pos (hpos f hn)).not_gt
      · rw [worth_positive]
        exact iff_of_true rfl (hpos f hn)
  | @finite sign m e hm hlow hhigh =>
    cases hy with
    | zero sign' =>
      cases sign
      · rw [worth_negative]
        exact iff_of_true rfl (neg_neg_of_pos (hpos e hm))
      · rw [worth_positive]
        exact iff_of_false (by simp [UnpackedFloat.lt, UnpackedFloat.compare]) (hpos e hm).not_gt
    | @finite sign' n f hn hlow' hhigh' =>
      cases sign <;> cases sign'
      · rw [negative_lt_negative_iff, worth_negative, worth_negative, neg_lt_neg_iff,
          size_lt_size_iff hlow' hhigh' hlow hhigh]
      · rw [worth_negative, worth_positive]
        exact iff_of_true rfl ((neg_neg_of_pos (hpos e hm)).trans (hpos f hn))
      · rw [worth_positive, worth_negative]
        exact iff_of_false (by simp [UnpackedFloat.lt, UnpackedFloat.compare])
          ((neg_neg_of_pos (hpos f hn)).trans (hpos e hm)).not_gt
      · rw [positive_lt_positive_iff, worth_positive, worth_positive,
          size_lt_size_iff hlow hhigh hlow' hhigh']

theorem Normal.neg (h : Normal x) : Normal x.neg := by
  cases h with
  | zero sign => exact .zero (-sign)
  | finite sign hm hlow hhigh hleast hgreatest =>
    exact .finite (-sign) hm hlow hhigh hleast hgreatest

theorem worth_neg (x : UnpackedFloat) : worth x.neg = -worth x := by
  cases x with
  | finite sign m e hm =>
    cases sign
    · exact worth_positive.trans (by rw [worth_negative, neg_neg])
    · exact worth_negative.trans (by rw [worth_positive])
  | infinity sign => exact neg_zero.symm
  | notANumber => exact neg_zero.symm
  | zero sign => exact neg_zero.symm

/-! ### Rounding a double -/

theorem shiftToTargetExponent_exact {e : Int} (hn : 52 ≤ n.log2) (he : -1074 ≤ e) :
    shiftToTargetExponent Format.binary64 n e .exact =
      (ExtendedMantissa.mk n false false >>> (n.log2 - 52), e + (n.log2 - 52 : Nat)) := by
  have htarget : Format.binary64.targetExponent (totalExponent n e) = e + (n.log2 - 52 : Nat) := by
    simp only [Format.targetExponent, totalExponent, Format.mantissaBits, Format.minExponent]
    omega
  rw [shiftToTargetExponent, htarget, shiftToExponent, add_sub_cancel_left, Int.toNat_natCast]
  rfl

/-- A rounded significand has 53 bits, or is the power of two behind those. -/
theorem significand_bounds (hn : 52 ≤ n.log2) :
    2 ^ 52 ≤ nearestQuotient n (spacing n) ∧ nearestQuotient n (spacing n) ≤ 2 ^ 53 := by
  have hne : n ≠ 0 := by
    rintro rfl
    exact absurd hn (by decide)
  have hlog : n.log2 = 52 + (n.log2 - 52) := by omega
  have hlow := le_roundedSize hne
  have hhigh := roundedSize_le n
  rw [roundedSize] at hlow hhigh
  constructor
  · refine Nat.le_of_mul_le_mul_right ?_ (spacing_pos n)
    rwa [spacing, ← Nat.pow_add, ← hlog]
  · refine Nat.le_of_mul_le_mul_right ?_ (spacing_pos n)
    rwa [spacing, ← Nat.pow_add, show 53 + (n.log2 - 52) = n.log2 + 1 by omega]

/-- What remains to be shifted after rounding is nothing, or the one bit of a power of two. -/
theorem exists_significand (hlow : 2 ^ 52 ≤ m) (hhigh : m ≤ 2 ^ 53) :
    ∃ k ≤ 1, m.log2 - 52 = k ∧ m / 2 ^ k * 2 ^ k = m ∧ 2 ^ 52 ≤ m / 2 ^ k ∧ m / 2 ^ k < 2 ^ 53 := by
  rcases hhigh.lt_or_eq with hlt | rfl
  · exact ⟨0, by omega, by rw [log2_of_significand hlow hlt], by omega, by omega, by omega⟩
  · exact ⟨1, le_rfl, by rw [Nat.log2_two_pow], by decide, by decide, by decide⟩

theorem apply_mul (sign : Sign) (i j : Int) : sign.apply (i * j) = sign.apply i * j := by
  cases sign
  · exact (Int.neg_mul i j).symm
  · rfl

/-- A product is rounded to 53 significant bits. -/
theorem roundWithAccuracy_exact {e : Int} (hn : 52 ≤ n.log2) (he : -1074 ≤ e)
    (hgreatest : e + n.log2 ≤ 1022) :
    Normal (roundWithAccuracy Format.binary64 sign n e .exact) ∧
      worth (roundWithAccuracy Format.binary64 sign n e .exact) =
        sign.apply (roundedSize n) * 2 ^ e := by
  obtain ⟨hlow, hhigh⟩ := significand_bounds hn
  obtain ⟨k, hk, hshift, hwhole, hlow', hhigh'⟩ := exists_significand hlow hhigh
  have hround : roundWithAccuracy Format.binary64 sign n e .exact =
      .finite sign (nearestQuotient n (spacing n) / 2 ^ k) (e + (n.log2 - 52 : Nat) + k)
        (by omega) := by
    have hlog : 52 ≤ (nearestQuotient n (spacing n)).log2 := (Nat.le_log2 (by omega)).2 hlow
    rw [roundWithAccuracy, shiftToTargetExponent_exact hn he]
    dsimp only
    rw [(shifted n (n.log2 - 52)).roundedMantissa, ← spacing,
      shiftToTargetExponent_exact hlog (by omega), hshift]
    dsimp only
    simp only [(shifted (nearestQuotient n (spacing n)) k).mantissa]
    rw [dif_neg (by omega)]
  rw [hround]
  refine ⟨.finite sign _ hlow' hhigh' (by omega) (by omega), ?_⟩
  have hsize : roundedSize n =
      nearestQuotient n (spacing n) / 2 ^ k * (2 ^ k * 2 ^ (n.log2 - 52)) := by
    rw [← Nat.mul_assoc, hwhole]
    rfl
  rw [hsize, worth, Nat.cast_mul, apply_mul, zpow_add₀ two_ne_zero, zpow_add₀ two_ne_zero,
    zpow_natCast, zpow_natCast]
  push_cast
  ring

/-- A factor that is a power of two is only a matter of the exponent. -/
theorem roundWithAccuracy_scaled (sign : Sign) {e : Int} (hne : n ≠ 0) (k : Nat) (hn : 52 ≤ n.log2 + k)
    (he : -1074 ≤ e - k) (hgreatest : e + n.log2 ≤ 1022) :
    Normal (roundWithAccuracy Format.binary64 sign (n * 2 ^ k) (e - k) .exact) ∧
      worth (roundWithAccuracy Format.binary64 sign (n * 2 ^ k) (e - k) .exact) =
        sign.apply (roundedSize n) * 2 ^ e := by
  have hlog := log2_mul_two_pow hne k
  refine (roundWithAccuracy_exact (by omega) he (by omega)).imp_right fun hworth => ?_
  rw [hworth, roundedSize_mul_two_pow, Nat.cast_mul, apply_mul, zpow_sub₀ two_ne_zero, zpow_natCast]
  push_cast
  field_simp

/-! ### Whole numbers -/

/-- The double is no infinity and no missing number, and stands for this whole number. -/
structure StandsFor (f : Float) (i : Int) : Prop where
  normal : Normal f.toModel.unpack
  worth_eq : worth f.toModel.unpack = i

theorem standsFor_of_normal (hx : Normal x) (h : worth x = i) :
    StandsFor (Float.ofModel (Float.Model.pack x)) i :=
  ⟨hx.unpack_pack.symm ▸ hx, hx.unpack_pack.symm ▸ h⟩

/-- Doubles that stand for whole numbers are compared as those are. -/
theorem StandsFor.lt_iff {f g : Float} (hf : StandsFor f i) (hg : StandsFor g j) :
    f < g ↔ i < j := by
  have hlt : f < g ↔ f.toModel.unpack.lt g.toModel.unpack = true := by
    change decide (f.toModel < g.toModel) = true ↔ _
    rw [decide_eq_true_iff]
    rfl
  rw [hlt, hf.normal.lt_iff hg.normal, hf.worth_eq, hg.worth_eq, Int.cast_lt]

theorem StandsFor.neg {f : Float} (hf : StandsFor f i) : StandsFor f.neg (-i) :=
  standsFor_of_normal hf.normal.neg (by rw [worth_neg, hf.worth_eq, Int.cast_neg])

/-- A number of at most 53 bits is shifted until it has as many. -/
theorem round_of_lt (hn : 0 < n) (h : n < 2 ^ 53) :
    Normal (round Format.binary64 .positive n 0) ∧
      worth (round Format.binary64 .positive n 0) = n := by
  have hlog : n.log2 ≤ 52 := Nat.lt_succ_iff.1 ((Nat.log2_lt hn.ne').2 h)
  have hround : round Format.binary64 .positive n 0 = roundWithAccuracy Format.binary64 .positive
      (n * 2 ^ (52 - n.log2)) (0 - (52 - n.log2 : Nat)) .exact := by
    have htarget : Format.binary64.targetExponent (totalExponent n 0) = -(52 - n.log2 : Nat) := by
      simp only [Format.targetExponent, totalExponent, Format.mantissaBits, Format.minExponent]
      omega
    rw [UnpackedFloat.round, htarget, decreaseExponent]
    simp [Nat.shiftLeft_eq]
  rw [hround]
  refine (roundWithAccuracy_scaled .positive hn.ne' _ (by omega) (by omega) (by omega)).imp_right
    fun hworth => ?_
  rw [hworth, roundedSize_of_le h.le, zpow_zero, mul_one]
  rfl

theorem standsFor_toFloat (h : n < 2 ^ 53) : StandsFor n.toUInt64.toFloat n := by
  have hn : n.toUInt64.toNat = n := UInt64.toNat_ofNat_of_lt (by simp [UInt64.size]; omega)
  change StandsFor (Float.ofModel (Float.Model.pack
    (UnpackedFloat.ofNat Format.binary64 n.toUInt64.toNat))) n
  rw [hn]
  rcases Nat.eq_zero_or_pos n with rfl | hpos
  · exact standsFor_of_normal (.zero .positive) rfl
  · have hof : UnpackedFloat.ofNat Format.binary64 n = round Format.binary64 .positive n 0 := by
      have hcompare : compare (n : Int) 0 = .gt := compare_gt_iff_gt.2 (by omega)
      rw [UnpackedFloat.ofNat, UnpackedFloat.ofInt, UnpackedFloat.normalize, hcompare]
      rfl
    obtain ⟨hnormal, hworth⟩ := round_of_lt hpos h
    exact hof ▸ standsFor_of_normal hnormal hworth

/-- Multiplying by one changes nothing. -/
theorem StandsFor.mul_one {f : Float} (hf : StandsFor f n) (h : n < 2 ^ 53) :
    StandsFor (f * Float.ofBits 0x3FF0000000000000) n := by
  have hone : (Float.ofBits 0x3FF0000000000000).toModel.unpack =
      .finite .positive (2 ^ 52) (-52) (by decide) := rfl
  obtain ⟨hnormal, hworth⟩ := hf
  change StandsFor (Float.ofModel (Float.Model.pack (mul Format.binary64 f.toModel.unpack
    (Float.ofBits 0x3FF0000000000000).toModel.unpack))) n
  rw [hone]
  generalize f.toModel.unpack = x at hnormal hworth
  cases hnormal with
  | zero sign => exact standsFor_of_normal (.zero _) hworth
  | @finite sign m e hm hlow hhigh =>
    cases sign
    · rw [worth_negative] at hworth
      have hpos : (0 : ℚ) < m * 2 ^ e := by positivity
      have hcast : (0 : ℚ) ≤ n := Nat.cast_nonneg n
      push_cast at hworth
      linarith
    · rw [worth_positive] at hworth
      push_cast at hworth
      obtain ⟨hleast, hgreatest⟩ := exponent_bounds hlow hhigh hworth h
      have hlog := log2_of_significand hlow hhigh
      obtain ⟨hnormal', hworth'⟩ := roundWithAccuracy_scaled .positive (e := e) hm.ne' 52
        (by omega) (by omega) (by omega)
      refine standsFor_of_normal hnormal' (hworth'.trans ?_)
      rw [roundedSize_of_le hhigh.le]
      exact_mod_cast hworth

theorem standsFor_ofNat_of_lt (h : n < 2 ^ 53) : StandsFor (Float.ofNat n) n := by
  have hfast : Float.ofNat n = n.toUInt64.toFloat * Float.ofBits 0x3FF0000000000000 :=
    dif_pos ⟨h, by decide⟩
  exact hfast ▸ (standsFor_toFloat h).mul_one h

theorem standsFor_ofNat_of_le (hlow : 2 ^ 53 ≤ n) (hhigh : n < 2 ^ 64) :
    StandsFor (Float.ofNat n) (roundedSize n) := by
  have hslow : Float.ofNat n =
      Float.ofModel (Float.Model.pack (UnpackedFloat.ofScientific Format.binary64 n 0)) :=
    dif_neg fun h => absurd h.1 (by omega)
  have hmul : UnpackedFloat.ofScientific Format.binary64 n 0 =
      roundWithAccuracy Format.binary64 .positive (n * 2 ^ 53) (0 - (53 : Nat)) .exact := by
    rw [UnpackedFloat.ofScientific, dif_neg (by omega), if_neg (by decide), if_neg (by simp),
      if_pos le_rfl]
    simp only [UnpackedFloat.mul, Nat.shiftLeft_eq, Int.toNat_zero, Nat.pow_zero, Nat.mul_one]
    rfl
  have hleast : 53 ≤ n.log2 := (Nat.le_log2 (by omega)).2 hlow
  have hgreatest : n.log2 < 64 := (Nat.log2_lt (by omega)).2 hhigh
  obtain ⟨hnormal, hworth⟩ := roundWithAccuracy_scaled .positive (n := n) (e := 0) (by omega) 53
    (by omega) (by omega) (by omega)
  rw [hslow, hmul]
  refine standsFor_of_normal hnormal (hworth.trans ?_)
  rw [zpow_zero, mul_one]
  rfl

theorem standsFor_ofNat (h : n < 2 ^ 64) : StandsFor (Float.ofNat n) (roundedSize n) := by
  rcases Nat.lt_or_ge n (2 ^ 53) with hlt | hle
  · rw [roundedSize_of_le hlt.le]
    exact standsFor_ofNat_of_lt hlt
  · exact standsFor_ofNat_of_le hle h

/-- The double of a whole number stands for the number rounded. -/
theorem standsFor_ofInt (h : i.natAbs < 2 ^ 64) : StandsFor (Float.ofInt i) (rounded i) := by
  cases i with
  | ofNat n => exact standsFor_ofNat h
  | negSucc n => exact (standsFor_ofNat h).neg

/-- Whole numbers are compared as doubles in the order of the rounded numbers. -/
theorem ofInt_lt_ofInt_iff (hi : i.natAbs < 2 ^ 64) (hj : j.natAbs < 2 ^ 64) :
    Float.ofInt i < Float.ofInt j ↔ rounded i < rounded j :=
  (standsFor_ofInt hi).lt_iff (standsFor_ofInt hj)

end Schemata.Number
