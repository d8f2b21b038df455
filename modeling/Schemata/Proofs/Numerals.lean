import Mathlib.Data.List.Induction
import Mathlib.Tactic.IntervalCases
import Schemata.Number.Integer
import Schemata.Proofs.Fold

/-! Numbers as they are written.

A number in so many digits is read back as itself, and digits are the number that they
write in so many digits; so a text of digits and its value tell each other. A whole
number is read from exactly the texts that write it: an optional sign and digits. -/
namespace Schemata.Number

variable {c : Char} {s ds : List Char} {n width : Nat}

/-! ### Digits -/

/-- The decimal digits, those of ASCII. -/
def decimalDigits : List Char := ['0', '1', '2', '3', '4', '5', '6', '7', '8', '9']

theorem isDigit_iff_mem : c.isDigit = true ↔ c ∈ decimalDigits := by
  constructor
  · intro h
    have hbounds : 48 ≤ c.toNat ∧ c.toNat ≤ 57 := by
      simpa [Char.isDigit, UInt32.le_iff_toNat_le] using h
    obtain ⟨hlow, hhigh⟩ := hbounds
    have hc : c = Char.ofNat c.toNat := (Char.ofNat_toNat c).symm
    generalize c.toNat = code at *
    interval_cases code <;> subst hc <;> decide
  · intro h
    simp only [decimalDigits, List.mem_cons, List.not_mem_nil, or_false] at h
    rcases h with rfl | rfl | rfl | rfl | rfl | rfl | rfl | rfl | rfl | rfl <;> rfl

theorem isDigit_digitChar (h : n < 10) : (Nat.digitChar n).isDigit = true := by
  interval_cases n <;> rfl

theorem digitValue_digitChar (h : n < 10) : digitValue (Nat.digitChar n) = n := by
  interval_cases n <;> rfl

theorem exists_digitChar (h : c.isDigit = true) : ∃ n, n < 10 ∧ Nat.digitChar n = c := by
  have hdigits : decimalDigits = (List.range 10).map Nat.digitChar := rfl
  simpa [hdigits] using isDigit_iff_mem.1 h

theorem digitChar_digitValue (h : c.isDigit = true) : Nat.digitChar (digitValue c) = c := by
  obtain ⟨n, hn, rfl⟩ := exists_digitChar h
  rw [digitValue_digitChar hn]

theorem digitValue_lt (h : c.isDigit = true) : digitValue c < 10 := by
  obtain ⟨n, hn, rfl⟩ := exists_digitChar h
  rwa [digitValue_digitChar hn]

/-! ### Numbers of a width -/

/-- The number in so many digits, with zeros in front where it needs fewer. -/
def padded : Nat → Nat → List Char
  | 0, _ => []
  | width + 1, n => padded width (n / 10) ++ [Nat.digitChar (n % 10)]

@[simp]
theorem length_padded : (padded width n).length = width := by
  induction width generalizing n with
  | zero => rfl
  | succ width ih => simp [padded, ih]

theorem isDigit_of_mem_padded (h : c ∈ padded width n) : c.isDigit = true := by
  induction width generalizing n with
  | zero => cases h
  | succ width ih =>
    rw [padded, List.mem_append, List.mem_singleton] at h
    rcases h with h | rfl
    · exact ih h
    · exact isDigit_digitChar (Nat.mod_lt n (by decide))

theorem digitsValue_concat : digitsValue (ds ++ [c]) = 10 * digitsValue ds + digitValue c := by
  simp [digitsValue]

theorem digitsValue_padded (h : n < 10 ^ width) : digitsValue (padded width n) = n := by
  induction width generalizing n with
  | zero =>
    obtain rfl : n = 0 := by simpa using h
    rfl
  | succ width ih =>
    have hlead : n / 10 < 10 ^ width := by
      rw [Nat.div_lt_iff_lt_mul (by decide)]
      simpa [Nat.pow_succ] using h
    rw [padded, digitsValue_concat, ih hlead, digitValue_digitChar (Nat.mod_lt n (by decide))]
    omega

theorem padded_digitsValue (h : ∀ c ∈ s, c.isDigit = true) :
    padded s.length (digitsValue s) = s := by
  induction s using List.reverseRecOn with
  | nil => rfl
  | append_singleton ds c ih =>
    have hds : ∀ d ∈ ds, d.isDigit = true := fun d hd => h d (List.mem_append_left _ hd)
    have hc : c.isDigit = true := h c (by simp)
    have hlt : digitValue c < 10 := digitValue_lt hc
    have hdiv : (10 * digitsValue ds + digitValue c) / 10 = digitsValue ds := by omega
    have hmod : (10 * digitsValue ds + digitValue c) % 10 = digitValue c := by omega
    rw [List.length_append, List.length_singleton, digitsValue_concat, padded, hdiv, hmod, ih hds,
      digitChar_digitValue hc]

/-! ### Whole numbers -/

/-- The text is the whole number, in digits behind an optional sign. -/
inductive Writes : List Char → Int → Prop
  | plain {ds : List Char} (hne : ds ≠ []) (hds : ∀ d ∈ ds, d ∈ decimalDigits) :
    Writes ds (digitsValue ds)
  | plus {ds : List Char} (hne : ds ≠ []) (hds : ∀ d ∈ ds, d ∈ decimalDigits) :
    Writes ('+' :: ds) (digitsValue ds)
  | minus {ds : List Char} (hne : ds ≠ []) (hds : ∀ d ∈ ds, d ∈ decimalDigits) :
    Writes ('-' :: ds) (-digitsValue ds)

variable {i : Int64}

theorem map_readMagnitude_eq_ok_iff {limit : Nat} {overflow : IntegerFault} {f : Nat → Int64} :
    (readMagnitude limit overflow 0 ds).map f = .ok i ↔
      (∀ d ∈ ds, d.isDigit = true) ∧ digitsValue ds ≤ limit ∧ f (digitsValue ds) = i := by
  have hread : ∀ m, readMagnitude limit overflow 0 ds = .ok m ↔
      (∀ d ∈ ds, d.isDigit = true) ∧ m = digitsValue ds ∧ m ≤ limit :=
    fun m => readMagnitude_eq_ok_iff (Nat.zero_le limit)
  constructor
  · intro h
    obtain ⟨m, hm, rfl⟩ := map_eq_ok h
    obtain ⟨hds, rfl, hle⟩ := (hread m).1 hm
    exact ⟨hds, hle, rfl⟩
  · rintro ⟨hds, hle, rfl⟩
    rw [(hread (digitsValue ds)).2 ⟨hds, rfl, hle⟩]
    rfl

theorem readPositive_eq_ok_iff :
    readPositive ds = .ok i ↔ (∀ d ∈ ds, d.isDigit = true) ∧ i.toInt = digitsValue ds := by
  have hmap : readPositive ds =
      (readMagnitude (Nat.pow 2 63 - 1) .tooLarge 0 ds).map fun n : Nat => Int64.ofInt n := by
    unfold readPositive
    cases readMagnitude (Nat.pow 2 63 - 1) .tooLarge 0 ds <;> rfl
  rw [hmap, map_readMagnitude_eq_ok_iff]
  refine and_congr_right fun _ => ⟨?_, fun h => ?_⟩
  · rintro ⟨hle, rfl⟩
    exact Int64.toInt_ofInt_of_le (by omega) (by simp at hle; omega)
  · have hlt := i.toInt_lt
    exact ⟨by simp; omega, by rw [← h, Int64.ofInt_toInt]⟩

theorem readNegative_eq_ok_iff :
    readNegative ds = .ok i ↔ (∀ d ∈ ds, d.isDigit = true) ∧ i.toInt = -digitsValue ds := by
  have hmap : readNegative ds =
      (readMagnitude (Nat.pow 2 63) .tooSmall 0 ds).map fun n : Nat => Int64.ofInt (-n) := by
    unfold readNegative
    cases readMagnitude (Nat.pow 2 63) .tooSmall 0 ds <;> rfl
  rw [hmap, map_readMagnitude_eq_ok_iff]
  refine and_congr_right fun _ => ⟨?_, fun h => ?_⟩
  · rintro ⟨hle, rfl⟩
    exact Int64.toInt_ofInt_of_le (by simp at hle; omega) (by omega)
  · have hle := i.le_toInt
    exact ⟨by simp; omega, by rw [← h, Int64.ofInt_toInt]⟩

/-- A number of 64 bits is read from the texts that write it, and from no others. -/
theorem readInteger_eq_ok_iff : readInteger s = .ok i ↔ Writes s i.toInt := by
  constructor
  · intro h
    unfold readInteger at h
    split at h
    · cases h
    · cases h
    · cases h
    · next ds hne =>
      obtain ⟨hds, hvalue⟩ := readPositive_eq_ok_iff.1 h
      rw [hvalue]
      exact .plus (fun he => hne (by rw [he])) fun d hd => isDigit_iff_mem.1 (hds d hd)
    · next ds hne =>
      obtain ⟨hds, hvalue⟩ := readNegative_eq_ok_iff.1 h
      rw [hvalue]
      exact .minus (fun he => hne (by rw [he])) fun d hd => isDigit_iff_mem.1 (hds d hd)
    · next hne _ _ _ _ =>
      obtain ⟨hds, hvalue⟩ := readPositive_eq_ok_iff.1 h
      rw [hvalue]
      exact .plain hne fun d hd => isDigit_iff_mem.1 (hds d hd)
  · generalize hn : i.toInt = n
    intro h
    cases h with
    | plain hne hds =>
      have hread : readPositive s = .ok i :=
        readPositive_eq_ok_iff.2 ⟨fun d hd => isDigit_iff_mem.2 (hds d hd), hn⟩
      have hplus : ∀ rest, s ≠ '+' :: rest := by
        rintro rest rfl
        exact absurd (hds '+' List.mem_cons_self) (by decide)
      have hminus : ∀ rest, s ≠ '-' :: rest := by
        rintro rest rfl
        exact absurd (hds '-' List.mem_cons_self) (by decide)
      unfold readInteger
      split <;> simp_all
    | @plus ds hne hds =>
      rw [← readPositive_eq_ok_iff.2 ⟨fun d hd => isDigit_iff_mem.2 (hds d hd), hn⟩]
      cases ds with
      | nil => exact absurd rfl hne
      | cons d ds => rfl
    | @minus ds hne hds =>
      rw [← readNegative_eq_ok_iff.2 ⟨fun d hd => isDigit_iff_mem.2 (hds d hd), hn⟩]
      cases ds with
      | nil => exact absurd rfl hne
      | cons d ds => rfl

end Schemata.Number
