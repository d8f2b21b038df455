import Schemata.Literal
import Schemata.Proofs.Numerals
import Schemata.Proofs.Pieces

/-! Literals that are text of a format.

Identifiers, dates, times and durations have a grammar, told here by how their texts are
written: numbers within bounds in so many digits, with marks between them. The literals of
these types are exactly the texts of the grammar, whatever the constraints are, and any
other text is refused (`readLiteral_recognizes`). -/
namespace Schemata.Literal

open Number Text

/-! ### Grammars -/

/-- The hexadecimal digits, those of ASCII, in either case. -/
def hexDigits : List Char := decimalDigits ++ ['a', 'b', 'c', 'd', 'e', 'f'] ++
  ['A', 'B', 'C', 'D', 'E', 'F']

/-- So many hexadecimal digits. -/
def HexGroup (group : List Char) (length : Nat) : Prop :=
  group.length = length ∧ ∀ c ∈ group, c ∈ hexDigits

/-- Five groups of hexadecimal digits, joined by hyphens. -/
inductive Guid : List Char → Prop
  | joined {groups : List (List Char)} (hgroups : List.Forall₂ HexGroup groups [8, 4, 4, 4, 12]) :
    Guid (join '-' groups)

/-- Four digits of a year, two of a month and two of a day, with hyphens between them. -/
inductive Date : List Char → Prop
  | written {year month day : Nat} (hyear : year ≤ 9999) (hmonth : 1 ≤ month ∧ month ≤ 12)
    (hday : 1 ≤ day ∧ day ≤ 31) :
    Date (padded 4 year ++ '-' :: (padded 2 month ++ '-' :: padded 2 day))

/-- Two digits each of hours, minutes and seconds, with colons between them. -/
inductive Clock : List Char → Prop
  | written {hours minutes seconds : Nat} (hhours : hours ≤ 23) (hminutes : minutes ≤ 59)
    (hseconds : seconds ≤ 59) :
    Clock (padded 2 hours ++ ':' :: (padded 2 minutes ++ ':' :: padded 2 seconds))

/-- One digit or more. -/
def Digits (s : List Char) : Prop := s ≠ [] ∧ ∀ c ∈ s, c ∈ decimalDigits

/-- A clock time, perhaps with digits behind a point. -/
inductive Time : List Char → Prop
  | whole {clock : List Char} (hclock : Clock clock) : Time clock
  | fraction {clock digits : List Char} (hclock : Clock clock) (hdigits : Digits digits) :
    Time (clock ++ '.' :: digits)

/-- A date and a time with a `T` or a space between them, perhaps with a `Z` behind them. -/
inductive DateTime : List Char → Prop
  | plain {date time : List Char} {mark : Char} (hdate : Date date) (hmark : mark ∈ ['T', ' '])
    (htime : Time time) : DateTime (date ++ mark :: time)
  | zoned {date time : List Char} {mark : Char} (hdate : Date date) (hmark : mark ∈ ['T', ' '])
    (htime : Time time) : DateTime (date ++ mark :: time ++ ['Z'])

/-- A clock time, perhaps with the digits of days and a point before it. -/
inductive Duration : List Char → Prop
  | clock {clock : List Char} (hclock : Clock clock) : Duration clock
  | days {days clock : List Char} (hdays : Digits days) (hclock : Clock clock) :
    Duration (days ++ '.' :: clock)

/-! ### Groups and fields -/

variable {s x y z : List Char} {c sep : Char} {width least greatest n : Nat}

theorem isHexDigit_iff_mem : isHexDigit c = true ↔ c ∈ hexDigits := by
  constructor
  · intro h
    have hcode : (48 ≤ c.toNat ∧ c.toNat ≤ 57 ∨ 97 ≤ c.toNat ∧ c.toNat ≤ 102) ∨
        65 ≤ c.toNat ∧ c.toNat ≤ 70 := by
      simpa [isHexDigit, Char.isDigit, Char.le_def, UInt32.le_iff_toNat_le] using h
    rw [← Char.ofNat_toNat c]
    generalize c.toNat = code at hcode
    rcases hcode with (⟨hlow, hhigh⟩ | ⟨hlow, hhigh⟩) | ⟨hlow, hhigh⟩ <;>
      interval_cases code <;> decide
  · have hall : hexDigits.all isHexDigit = true := by decide
    exact List.all_eq_true.1 hall c

theorem isField_iff (h : greatest < 10 ^ width) :
    isField width least greatest s = true ↔
      ∃ n, least ≤ n ∧ n ≤ greatest ∧ s = padded width n := by
  simp only [isField, Bool.and_eq_true, decide_eq_true_eq, List.all_eq_true]
  constructor
  · rintro ⟨⟨⟨rfl, hdigits⟩, hleast⟩, hgreatest⟩
    exact ⟨digitsValue s, hleast, hgreatest, (padded_digitsValue hdigits).symm⟩
  · rintro ⟨n, hleast, hgreatest, rfl⟩
    rw [digitsValue_padded (Nat.lt_of_le_of_lt hgreatest h)]
    exact ⟨⟨⟨length_padded, fun _ => isDigit_of_mem_padded⟩, hleast⟩, hgreatest⟩

theorem isDigits_iff : isDigits s = true ↔ Digits s := by
  simp [isDigits, Digits, isDigit_iff_mem]

theorem not_mem_of_isField (hsep : sep.isDigit = false)
    (h : isField width least greatest s = true) : sep ∉ s := by
  simp only [isField, Bool.and_eq_true, decide_eq_true_eq, List.all_eq_true] at h
  exact fun hmem => absurd (h.1.1.2 sep hmem) (by simp [hsep])

/-- Three pieces with a separator between each two. -/
theorem threePieces_iff {P Q R : List Char → Bool} (hP : ∀ x, P x = true → sep ∉ x)
    (hQ : ∀ y, Q y = true → sep ∉ y) (hR : ∀ z, R z = true → sep ∉ z) :
    (match split (· == sep) s with
      | [x, y, z] => P x && Q y && R z
      | _ => false) = true ↔
      ∃ x y z, P x = true ∧ Q y = true ∧ R z = true ∧ s = x ++ sep :: (y ++ sep :: z) := by
  constructor
  · intro h
    split at h
    · next x y z hsplit =>
      simp only [Bool.and_eq_true] at h
      obtain ⟨⟨hx, hy⟩, hz⟩ := h
      exact ⟨x, y, z, hx, hy, hz, (split_eq_iff.1 hsplit).2.2.symm⟩
    · cases h
  · rintro ⟨x, y, z, hx, hy, hz, rfl⟩
    have hsplit : split (· == sep) (x ++ sep :: (y ++ sep :: z)) = [x, y, z] :=
      split_eq_iff.2 ⟨List.cons_ne_nil _ _, by simp [hP x hx, hQ y hy, hR z hz], rfl⟩
    simp [hsplit, hx, hy, hz]

/-! ### Recognising -/

theorem forall₂_hexGroup_iff {groups : List (List Char)} {lengths : List Nat} :
    List.Forall₂ HexGroup groups lengths ↔
      groups.map List.length = lengths ∧ ∀ group ∈ groups, ∀ c ∈ group, isHexDigit c = true := by
  induction groups generalizing lengths with
  | nil => cases lengths <;> simp
  | cons group groups ih =>
    cases lengths with
    | nil => simp
    | cons length lengths =>
      simp only [List.forall₂_cons, ih, HexGroup, isHexDigit_iff_mem, List.map_cons,
        List.cons.injEq, List.forall_mem_cons]
      tauto

theorem isGuid_iff : isGuid s = true ↔ Guid s := by
  have hgroups : isGuid s = true ↔
      List.Forall₂ HexGroup (split (· == '-') s) [8, 4, 4, 4, 12] := by
    rw [forall₂_hexGroup_iff]
    simp [isGuid]
  rw [hgroups]
  constructor
  · intro h
    rw [← join_split '-' s]
    exact .joined h
  · rintro ⟨h⟩
    rwa [split_join]
    · rintro rfl
      cases h
    · intro group hgroup hmem
      have hhyphen := (forall₂_hexGroup_iff.1 h).2 group hgroup '-' hmem
      exact absurd hhyphen (by decide)

theorem isDate_iff : isDate s = true ↔ Date s := by
  have hhyphen : '-'.isDigit = false := rfl
  refine (threePieces_iff (fun _ => not_mem_of_isField hhyphen)
    (fun _ => not_mem_of_isField hhyphen) (fun _ => not_mem_of_isField hhyphen)).trans ?_
  constructor
  · rintro ⟨x, y, z, hx, hy, hz, rfl⟩
    obtain ⟨year, -, hyear, rfl⟩ := (isField_iff (by decide)).1 hx
    obtain ⟨month, hfirst, hlast, rfl⟩ := (isField_iff (by decide)).1 hy
    obtain ⟨day, hleast, hgreatest, rfl⟩ := (isField_iff (by decide)).1 hz
    exact .written hyear ⟨hfirst, hlast⟩ ⟨hleast, hgreatest⟩
  · rintro ⟨hyear, hmonth, hday⟩
    exact ⟨_, _, _, (isField_iff (by decide)).2 ⟨_, Nat.zero_le _, hyear, rfl⟩,
      (isField_iff (by decide)).2 ⟨_, hmonth.1, hmonth.2, rfl⟩,
      (isField_iff (by decide)).2 ⟨_, hday.1, hday.2, rfl⟩, rfl⟩

theorem isClock_iff : isClock s = true ↔ Clock s := by
  have hcolon : ':'.isDigit = false := rfl
  refine (threePieces_iff (fun _ => not_mem_of_isField hcolon)
    (fun _ => not_mem_of_isField hcolon) (fun _ => not_mem_of_isField hcolon)).trans ?_
  constructor
  · rintro ⟨x, y, z, hx, hy, hz, rfl⟩
    obtain ⟨hours, -, hhours, rfl⟩ := (isField_iff (by decide)).1 hx
    obtain ⟨minutes, -, hminutes, rfl⟩ := (isField_iff (by decide)).1 hy
    obtain ⟨seconds, -, hseconds, rfl⟩ := (isField_iff (by decide)).1 hz
    exact .written hhours hminutes hseconds
  · rintro ⟨hhours, hminutes, hseconds⟩
    exact ⟨_, _, _, (isField_iff (by decide)).2 ⟨_, Nat.zero_le _, hhours, rfl⟩,
      (isField_iff (by decide)).2 ⟨_, Nat.zero_le _, hminutes, rfl⟩,
      (isField_iff (by decide)).2 ⟨_, Nat.zero_le _, hseconds, rfl⟩, rfl⟩

/-! The marks tell the parts of a text apart: none of them is a digit. -/

theorem isDigit_or_mark {width' width'' n' n'' : Nat}
    (h : c ∈ padded width n ++ sep :: (padded width' n' ++ sep :: padded width'' n'')) :
    c.isDigit = true ∨ c = sep := by
  simp only [List.mem_append, List.mem_cons] at h
  rcases h with h | rfl | h | rfl | h
  · exact .inl (isDigit_of_mem_padded h)
  · exact .inr rfl
  · exact .inl (isDigit_of_mem_padded h)
  · exact .inr rfl
  · exact .inl (isDigit_of_mem_padded h)

theorem Clock.isDigit_or_colon (h : Clock s) (hc : c ∈ s) : c.isDigit = true ∨ c = ':' := by
  obtain ⟨_, _, _⟩ := h
  exact isDigit_or_mark hc

theorem Date.isDigit_or_hyphen (h : Date s) (hc : c ∈ s) : c.isDigit = true ∨ c = '-' := by
  obtain ⟨_, _, _⟩ := h
  exact isDigit_or_mark hc

theorem Clock.pointless (h : Clock s) : ∀ d ∈ s, (d == '.') = false := by
  intro d hd
  rcases h.isDigit_or_colon hd with hdigit | rfl
  · exact beq_false_of_ne (by rintro rfl; cases hdigit)
  · rfl

theorem Digits.pointless (h : Digits s) : ∀ d ∈ s, (d == '.') = false := by
  intro d hd
  exact beq_false_of_ne (by rintro rfl; exact absurd (h.2 '.' hd) (by decide))

theorem isTime_iff : isTime s = true ↔ Time s := by
  constructor
  · intro h
    unfold isTime at h
    split at h
    · next clock digits hcut =>
      obtain ⟨c, hc, -, rfl⟩ := cut_eq_some_iff.1 hcut
      obtain rfl : c = '.' := by simpa using hc
      simp only [Bool.and_eq_true] at h
      exact .fraction (isClock_iff.1 h.2) (isDigits_iff.1 h.1)
    · exact .whole (isClock_iff.1 h)
  · intro h
    unfold isTime
    cases h with
    | whole hclock =>
      rw [cut_eq_none_iff.2 hclock.pointless]
      exact isClock_iff.2 hclock
    | fraction hclock hdigits =>
      rw [cut_append hclock.pointless rfl]
      simp [isClock_iff.2 hclock, isDigits_iff.2 hdigits]

theorem isDuration_iff : isDuration s = true ↔ Duration s := by
  constructor
  · intro h
    unfold isDuration at h
    split at h
    · next days rest hcut =>
      obtain ⟨c, hc, -, rfl⟩ := cut_eq_some_iff.1 hcut
      obtain rfl : c = '.' := by simpa using hc
      split at h
      · next hdays => exact .days (isDigits_iff.1 hdays) (isClock_iff.1 h)
      · exact .clock (isClock_iff.1 h)
    · exact .clock (isClock_iff.1 h)
  · intro h
    unfold isDuration
    cases h with
    | clock hclock =>
      rw [cut_eq_none_iff.2 hclock.pointless]
      exact isClock_iff.2 hclock
    | days hdays hclock =>
      rw [cut_append hdays.pointless rfl]
      simp [isDigits_iff.2 hdays, isClock_iff.2 hclock]

/-- Days are digits: a point alone does not stand for none. -/
example : Duration "1.02:03:04".toList ∧ ¬Duration ".02:03:04".toList := by
  rw [← isDuration_iff, ← isDuration_iff]
  decide

/-- The text with its zone, if it has one. -/
theorem eq_withoutZone_or (s : List Char) : s = withoutZone s ∨ s = withoutZone s ++ ['Z'] := by
  unfold withoutZone
  split
  · next h => exact .inr (List.dropLast_append_getLast? 'Z' h).symm
  · exact .inl rfl

theorem withoutZone_concat (s : List Char) : withoutZone (s ++ ['Z']) = s := by
  simp [withoutZone]

theorem Time.not_zone (h : Time s) : 'Z' ∉ s := by
  have hclock : ∀ {clock}, Clock clock → 'Z' ∉ clock := fun hclock hmem => by
    rcases hclock.isDigit_or_colon hmem with h | h <;> cases h
  cases h with
  | whole h => exact hclock h
  | fraction h hdigits =>
    simp only [List.mem_append, List.mem_cons, not_or]
    exact ⟨hclock h, by decide, fun hmem => absurd (hdigits.2 'Z' hmem) (by decide)⟩

theorem isDateTime_iff : isDateTime s = true ↔ DateTime s := by
  constructor
  · intro h
    unfold isDateTime at h
    split at h
    · next date time hcut =>
      obtain ⟨mark, hmark, -, hs⟩ := cut_eq_some_iff.1 hcut
      simp only [Bool.and_eq_true] at h
      have hdate := isDate_iff.1 h.1
      have htime := isTime_iff.1 h.2
      rcases eq_withoutZone_or s with hzone | hzone
      · rw [hzone, hs]
        exact .plain hdate (by simpa using hmark) htime
      · rw [hzone, hs]
        exact .zoned hdate (by simpa using hmark) htime
    · cases h
  · intro h
    have hread : ∀ {date time mark}, Date date → mark ∈ ['T', ' '] → Time time →
        withoutZone s = date ++ mark :: time → isDateTime s = true := by
      intro date time mark hdate hmark htime hs
      have hunmarked : ∀ d ∈ date, (d == 'T' || d == ' ') = false := by
        intro d hd
        rcases hdate.isDigit_or_hyphen hd with hdigit | rfl
        · exact Bool.or_eq_false_iff.2 ⟨beq_false_of_ne (by rintro rfl; cases hdigit),
            beq_false_of_ne (by rintro rfl; cases hdigit)⟩
        · rfl
      unfold isDateTime
      rw [hs, cut_append hunmarked (by simpa using hmark)]
      simp [isDate_iff.2 hdate, isTime_iff.2 htime]
    cases h with
    | @plain date time mark hdate hmark htime =>
      refine hread hdate hmark htime (if_neg fun hlast => ?_)
      have hmem := List.mem_of_getLast? hlast
      simp only [List.mem_append, List.mem_cons] at hmem
      rcases hmem with hz | rfl | hz
      · rcases hdate.isDigit_or_hyphen hz with h | h <;> cases h
      · exact absurd hmark (by decide)
      · exact htime.not_zone hz
    | zoned hdate hmark htime =>
      exact hread hdate hmark htime (withoutZone_concat _)

/-! ### Literals -/

/-- The literals of the type are the texts of the grammar, and any other text is refused. -/
structure Recognizes (type : Fundamental) (grammar : List Char → Prop) : Prop where
  accepts : ∀ (text : String) (c : Constraints),
    type.readLiteral text c = .ok (.text text) ↔ grammar text.toList
  refuses : ∀ (text : String) (c : Constraints), ¬grammar text.toList →
    type.readLiteral text c = .error (.otherFormat text type)

theorem recognizes_of_format {type : Fundamental} {format : List Char → Bool}
    {grammar : List Char → Prop} (hformat : ∀ s, format s = true ↔ grammar s)
    (htype : ∀ text c, type.readLiteral text c =
      Fundamental.readLiteral.ofFormat type text format) : Recognizes type grammar := by
  constructor
  · intro text c
    rw [htype, ← hformat, Fundamental.readLiteral.ofFormat]
    split <;> simp_all
  · intro text c hnone
    rw [htype, Fundamental.readLiteral.ofFormat, if_neg (mt (hformat _).1 hnone)]

/-- **The recognisers accept exactly their grammars**, whatever the constraints are. -/
theorem readLiteral_recognizes :
    Recognizes .guid Guid ∧ Recognizes .date Date ∧ Recognizes .time Time ∧
      Recognizes .dateTime DateTime ∧ Recognizes .duration Duration :=
  ⟨recognizes_of_format (fun _ => isGuid_iff) fun _ _ => rfl,
    recognizes_of_format (fun _ => isDate_iff) fun _ _ => rfl,
    recognizes_of_format (fun _ => isTime_iff) fun _ _ => rfl,
    recognizes_of_format (fun _ => isDateTime_iff) fun _ _ => rfl,
    recognizes_of_format (fun _ => isDuration_iff) fun _ _ => rfl⟩

end Schemata.Literal
