import Schemata.Literal
import Schemata.Proofs.Doubles
import Schemata.Proofs.Numerals

/-! Bounds of whole numbers.

A number and its bounds are compared as doubles. What is accepted is therefore a number that
is within the bounds once all three are rounded (`readLiteral_int`): no number within its
bounds is refused, but one that is out of them is accepted if rounding makes it the same as the
bound. Bounds of less than the size `2 ^ 53` are respected exactly. -/
namespace Schemata.Literal

open Number (rounded rounded_mono rounded_le_rounded_iff ofInt_lt_ofInt_iff)

variable {c : Constraints} {text : String} {i j : Int64} {w : Value} {x : Float}

/-! ### Checks -/

theorem checkLower_eq_ok_iff {least : Option Float} :
    checkLower x least = .ok () ↔ ∀ l, least = some l → ¬x < l := by
  cases least <;> simp [checkLower]

theorem checkUpper_eq_ok_iff {greatest : Option Float} :
    checkUpper x greatest = .ok () ↔ ∀ g, greatest = some g → ¬g < x := by
  cases greatest <;> simp [checkUpper]

theorem checkBounds_eq_ok_iff :
    checkBounds x c = .ok () ↔
      (∀ l, (c.find? "min").bind Value.asNumber? = some l → ¬x < l) ∧
        ∀ g, (c.find? "max").bind Value.asNumber? = some g → ¬g < x := by
  rw [← checkLower_eq_ok_iff, ← checkUpper_eq_ok_iff, checkBounds]
  cases checkLower x ((c.find? "min").bind Value.asNumber?) <;> simp [bind, Except.bind]

theorem readInt_eq_ok_iff :
    AttributeType.readInt text = .ok i ↔ Number.Writes (Text.trim text.toList) i.toInt := by
  rw [← Number.readInteger_eq_ok_iff, AttributeType.readInt]
  cases Number.readInteger (Text.trim text.toList) <;> simp [Except.mapError]

theorem readLiteral_int_eq_ok_iff :
    Fundamental.int.readLiteral text c = .ok w ↔
      ∃ i, w = .int i ∧ Number.Writes (Text.trim text.toList) i.toInt ∧
        checkBounds (Float.ofInt i.toInt) c = .ok () := by
  simp only [← readInt_eq_ok_iff, Fundamental.readLiteral]
  cases AttributeType.readInt text with
  | error f => simp [bind, Except.bind, Except.mapError]
  | ok i =>
    cases hcheck : checkBounds (Float.ofInt i.toInt) c <;>
      simp [bind, Except.bind, Except.mapError, pure, Except.pure, hcheck, eq_comm]

/-! ### Bounds that are whole numbers -/

/-- The bounds are whole numbers, where there are any. -/
structure WholeBounds (c : Constraints) : Prop where
  min : ∀ v, c.find? "min" = some v → ∃ i, v = .int i
  max : ∀ v, c.find? "max" = some v → ∃ i, v = .int i

/-- The number is within the bounds, as `view` shows all of them. -/
structure Within (view : Int → Int) (c : Constraints) (i : Int64) : Prop where
  least : ∀ l, c.find? "min" = some (.int l) → view l.toInt ≤ view i.toInt
  greatest : ∀ g, c.find? "max" = some (.int g) → view i.toInt ≤ view g.toInt

theorem ofInt_toInt_lt_iff :
    Float.ofInt i.toInt < Float.ofInt j.toInt ↔ rounded i.toInt < rounded j.toInt := by
  have hi := i.le_toInt
  have hi' := i.toInt_lt
  have hj := j.le_toInt
  have hj' := j.toInt_lt
  exact ofInt_lt_ofInt_iff (by omega) (by omega)

theorem forall_bound_iff {key : String} {p : Float → Prop}
    (h : ∀ v, c.find? key = some v → ∃ i, v = .int i) :
    (∀ b, (c.find? key).bind Value.asNumber? = some b → p b) ↔
      ∀ j, c.find? key = some (.int j) → p (Float.ofInt j.toInt) := by
  cases hbound : c.find? key with
  | none => simp
  | some v =>
    obtain ⟨j, rfl⟩ := h v hbound
    simp [Value.asNumber?]

theorem checkBounds_int_eq_ok_iff (h : WholeBounds c) :
    checkBounds (Float.ofInt i.toInt) c = .ok () ↔ Within rounded c i := by
  simp only [checkBounds_eq_ok_iff, forall_bound_iff h.min, forall_bound_iff h.max,
    ofInt_toInt_lt_iff, Int.not_lt]
  exact ⟨fun hbounds => ⟨hbounds.1, hbounds.2⟩, fun hwithin => ⟨hwithin.least, hwithin.greatest⟩⟩

/-- Rounding leads no number out of its bounds. -/
theorem Within.rounded (h : Within id c i) : Within Number.rounded c i :=
  ⟨fun l hl => rounded_mono (h.least l hl), fun g hg => rounded_mono (h.greatest g hg)⟩

/-- Both bounds are whole numbers of less than the size `2 ^ 53`. -/
def SmallBounds (c : Constraints) : Prop :=
  ∀ j, c.find? "min" = some (.int j) ∨ c.find? "max" = some (.int j) → j.toInt.natAbs < 2 ^ 53

theorem SmallBounds.within_iff (h : SmallBounds c) : Within rounded c i ↔ Within id c i :=
  ⟨fun hwithin =>
    ⟨fun l hl => (rounded_le_rounded_iff (.inl (h l (.inl hl)))).1 (hwithin.least l hl),
      fun g hg => (rounded_le_rounded_iff (.inr (h g (.inr hg)))).1 (hwithin.greatest g hg)⟩,
    Within.rounded⟩

/-- The value is the number that the text writes, and is within the bounds as `view` shows them. -/
def WritesWithin (view : Int → Int) (c : Constraints) (text : String) (w : Value) : Prop :=
  ∃ i : Int64, w = .int i ∧ Number.Writes (Text.trim text.toList) i.toInt ∧ Within view c i

theorem WritesWithin.imp {view view' : Int → Int} (h : WritesWithin view c text w)
    (himp : ∀ i, Within view c i → Within view' c i) : WritesWithin view' c text w := by
  obtain ⟨i, hw, hwrites, hwithin⟩ := h
  exact ⟨i, hw, hwrites, himp i hwithin⟩

theorem readLiteral_int_iff_rounded (h : WholeBounds c) :
    Fundamental.int.readLiteral text c = .ok w ↔ WritesWithin rounded c text w := by
  simp only [readLiteral_int_eq_ok_iff, checkBounds_int_eq_ok_iff h]
  rfl

/-- A literal is accepted if it writes a number of 64 bits that is within the bounds once they and
it are rounded to doubles. Every number within its bounds is, and if the bounds are small no other
number is. -/
theorem readLiteral_int (h : WholeBounds c) :
    (∀ text w, Fundamental.int.readLiteral text c = .ok w ↔ WritesWithin rounded c text w) ∧
    (∀ text w, WritesWithin id c text w → Fundamental.int.readLiteral text c = .ok w) ∧
    (SmallBounds c →
      ∀ text w, Fundamental.int.readLiteral text c = .ok w ↔ WritesWithin id c text w) := by
  refine ⟨fun text w => readLiteral_int_iff_rounded h, fun text w hw => ?_,
    fun hsmall text w => ?_⟩
  · exact (readLiteral_int_iff_rounded h).2 (hw.imp fun _ => Within.rounded)
  · exact (readLiteral_int_iff_rounded h).trans
      ⟨fun hw => hw.imp fun _ => hsmall.within_iff.1, fun hw => hw.imp fun _ => Within.rounded⟩

/-- At most `2 ^ 53`. -/
def atMostTwoPow53 : Constraints := OrderedMap.empty.insert "max" (.int 9007199254740992)

/-- The number behind the bound is accepted, for as a double it is the bound. -/
theorem atMostTwoPow53_exceeded :
    WholeBounds atMostTwoPow53 ∧ ¬Within id atMostTwoPow53 9007199254740993 ∧
      Fundamental.int.readLiteral " 9007199254740993" atMostTwoPow53 =
        .ok (.int 9007199254740993) := by
  have hwhole : WholeBounds atMostTwoPow53 := by
    constructor
    · rintro v ⟨⟩
    · rintro v ⟨⟩
      exact ⟨_, rfl⟩
  have hwithin : Within rounded atMostTwoPow53 9007199254740993 := by
    constructor
    · rintro l ⟨⟩
    · rintro g ⟨⟩
      decide
  exact ⟨hwhole, fun h => absurd (h.greatest _ rfl) (by decide),
    ((readLiteral_int hwhole).1 _ _).2 ⟨_, rfl, readInt_eq_ok_iff.1 rfl, hwithin⟩⟩

end Schemata.Literal
