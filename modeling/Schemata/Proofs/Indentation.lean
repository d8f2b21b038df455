import Mathlib.Data.List.Forall2
import Schemata.Proofs.Pieces
import Schemata.Text.Multiline

/-! Indentation that comes off again.

Of a text between delimiters every line that is not blank has to start with the white
space before the first of them. Lines that were indented, and set between a blank first
and a blank last line, come back as they were; and a text is refused exactly if there is
a line that lacks the indentation, at the number of the first one (`normalize_lines`). -/
namespace Schemata.Text

variable {s p l w indent : List Char} {lines opening closing outs : List (List Char)}
  {location : Location} {n : Nat} {f : Failure}

/-! ### Lines -/

/-- The white space before the first line that is not blank. -/
def indentation (lines : List (List Char)) : List Char :=
  ((lines.find? (!isBlankText ·)).getD []).takeWhile isBlank

/-- The line is not blank, and does not start with the indentation of the lines. -/
def Outdented (lines : List (List Char)) (l : List Char) : Prop :=
  isBlankText l = false ∧ ¬indentation lines <+: l

instance : Decidable (Outdented lines l) := inferInstanceAs (Decidable (_ ∧ _))

theorem after?_eq_none_iff : after? p s = none ↔ ¬p <+: s := by
  induction p generalizing s with
  | nil => simp [after?]
  | cons d p ih =>
    cases s with
    | nil => simp [after?]
    | cons c s =>
      by_cases h : d = c
      · simp [after?, h, ih]
      · simp [after?, h]

theorem after?_append (p s : List Char) : after? p (p ++ s) = some s := by
  induction p with
  | nil => rfl
  | cons d p ih => simp [after?, ih]

theorem dropReturns_of_getLast? (h : s.getLast? ≠ some '\r') : dropReturns s = s := by
  rcases List.eq_nil_or_concat s with rfl | ⟨s, c, rfl⟩
  · rfl
  · have hc : (c == '\r') = false := by simpa using h
    simp [dropReturns, hc]

theorem undent_eq_none_iff :
    undent indent l = none ↔ isBlankText l = false ∧ ¬indent <+: l := by
  unfold undent
  split
  · simp_all
  · simp_all [after?_eq_none_iff]

/-! ### All lines -/

theorem undentAll_eq_ok (h : List.Forall₂ (fun l out => undent indent l = some out) lines outs) :
    undentAll indent location n lines = .ok outs := by
  induction h generalizing n with
  | nil => rfl
  | cons hl _ ih =>
    unfold undentAll
    rw [hl]
    dsimp only
    rw [ih]
    rfl

/-- The first line that lacks the indentation is the one that is reported. -/
theorem undentAll_eq_error (h : undentAll indent location n lines = .error f) :
    ∃ before l after, lines = before ++ l :: after ∧
      (∀ b ∈ before, undent indent b ≠ none) ∧ undent indent l = none ∧
      f = (Cause.badIndentation (n + before.length)).at location := by
  induction lines generalizing n with
  | nil => cases h
  | cons l rest ih =>
    unfold undentAll at h
    split at h
    · next hl =>
      cases h
      exact ⟨[], l, rest, rfl, by simp, hl, rfl⟩
    · next out hl =>
      cases hrest : undentAll indent location (n + 1) rest with
      | ok outs =>
        rw [hrest] at h
        cases h
      | error e =>
        rw [hrest] at h
        cases h
        obtain ⟨before, l', after, rfl, hbefore, hl', rfl⟩ := ih hrest
        refine ⟨l :: before, l', after, rfl, ?_, hl', ?_⟩
        · simpa [hl] using hbefore
        · rw [List.length_cons, Nat.add_right_comm, Nat.add_assoc]

/-- If all lines lose the indentation, none lacks it. -/
theorem undent_of_undentAll (h : undentAll indent location n lines = .ok outs) :
    ∀ l ∈ lines, undent indent l ≠ none := by
  induction lines generalizing n outs with
  | nil => simp
  | cons l rest ih =>
    unfold undentAll at h
    split at h
    · cases h
    · next out hl =>
      cases hrest : undentAll indent location (n + 1) rest with
      | error e =>
        rw [hrest] at h
        cases h
      | ok outs => simpa [hl] using ih hrest

/-! ### Blank lines at the ends -/

theorem dropOpening_cons (h : isBlankText l = true) (hne : lines ≠ []) :
    dropOpening (l :: lines) = (1, lines) := by
  cases lines with
  | nil => exact absurd rfl hne
  | cons next rest => simp [dropOpening, h]

theorem dropClosing_concat (h : isBlankText l = true) (hne : lines ≠ []) :
    dropClosing (lines ++ [l]) = lines := by
  have hlength : 1 < lines.length + 1 := by
    have := List.length_pos_iff.2 hne
    omega
  simp [dropClosing, h, hlength]

/-- The lines that are left when a blank first and a blank last one are dropped. -/
def kept (lines : List (List Char)) : List (List Char) := dropClosing (dropOpening lines).2

theorem exists_opening (lines : List (List Char)) :
    ∃ opening, lines = opening ++ (dropOpening lines).2 ∧
      opening.length = (dropOpening lines).1 ∧ ∀ l ∈ opening, isBlankText l = true := by
  unfold dropOpening
  split
  · next first second rest =>
    split
    · next h => exact ⟨[first], rfl, rfl, by simpa using h⟩
    · exact ⟨[], rfl, rfl, by simp⟩
  · exact ⟨[], rfl, rfl, by simp⟩

theorem exists_closing (lines : List (List Char)) :
    ∃ closing, lines = dropClosing lines ++ closing ∧ ∀ l ∈ closing, isBlankText l = true := by
  unfold dropClosing
  split
  · next h =>
    simp only [Bool.and_eq_true, decide_eq_true_eq, Option.any_eq_true] at h
    obtain ⟨-, last, hlast, hblank⟩ := h
    exact ⟨[last], (List.dropLast_append_getLast? last hlast).symm, by simpa using hblank⟩
  · exact ⟨[], by simp, by simp⟩

/-- What is not kept is blank, and what comes before it is counted. -/
theorem exists_ends (lines : List (List Char)) :
    ∃ opening closing, lines = opening ++ (kept lines ++ closing) ∧
      opening.length = (dropOpening lines).1 ∧ (∀ l ∈ opening, isBlankText l = true) ∧
      ∀ l ∈ closing, isBlankText l = true := by
  obtain ⟨opening, hopening, hlength, hblank⟩ := exists_opening lines
  obtain ⟨closing, hclosing, hblank'⟩ := exists_closing (dropOpening lines).2
  exact ⟨opening, closing, hopening.trans (congrArg (opening ++ ·) hclosing), hlength, hblank,
    hblank'⟩

theorem mem_kept (hl : l ∈ lines) (h : isBlankText l = false) : l ∈ kept lines := by
  obtain ⟨opening, closing, hlines, -, hopening, hclosing⟩ := exists_ends lines
  rw [hlines, List.mem_append, List.mem_append] at hl
  rcases hl with hl | hl | hl
  · simp [hopening l hl] at h
  · exact hl
  · simp [hclosing l hl] at h

theorem find?_kept (lines : List (List Char)) :
    (kept lines).find? (!isBlankText ·) = lines.find? (!isBlankText ·) := by
  obtain ⟨opening, closing, hlines, -, hopening, hclosing⟩ := exists_ends lines
  have hnone : ∀ {blanks : List (List Char)}, (∀ l ∈ blanks, isBlankText l = true) →
      blanks.find? (!isBlankText ·) = none := fun h => by simpa using h
  conv_rhs => rw [hlines, List.find?_append, List.find?_append, hnone hopening, hnone hclosing]
  simp

/-! ### Texts -/

def linesOf (s : List Char) : List (List Char) := split (· == '\n') s

theorem normalize_of_blank (h : (linesOf s).find? (!isBlankText ·) = none) :
    normalize s location = .ok [] := by
  unfold normalize
  dsimp only
  rw [← kept, ← linesOf, find?_kept, h]

theorem normalize_of_some (h : (linesOf s).find? (!isBlankText ·) = some l) :
    normalize s location =
      (undentAll (indentation (linesOf s)) location (location.line + (dropOpening (linesOf s)).1)
        (kept (linesOf s))).map (join '\n') := by
  unfold normalize
  dsimp only
  rw [← kept, ← linesOf, find?_kept, h, indentation, h]
  rfl

/-- A text is refused at the first line that lacks the indentation. -/
theorem normalize_eq_error (h : normalize s location = .error f) :
    ∃ before l after, linesOf s = before ++ l :: after ∧
      (∀ b ∈ before, ¬Outdented (linesOf s) b) ∧ Outdented (linesOf s) l ∧
      f = (Cause.badIndentation (location.line + before.length)).at location := by
  cases hfirst : (linesOf s).find? (!isBlankText ·) with
  | none =>
    rw [normalize_of_blank hfirst] at h
    cases h
  | some first =>
    rw [normalize_of_some hfirst] at h
    obtain ⟨opening, closing, hlines, hlength, hopening, -⟩ := exists_ends (linesOf s)
    cases hall : undentAll (indentation (linesOf s)) location
        (location.line + (dropOpening (linesOf s)).1) (kept (linesOf s)) with
    | ok outs =>
      rw [hall] at h
      cases h
    | error e =>
      rw [hall] at h
      cases h
      obtain ⟨before, l, after, hkept, hbefore, hl, rfl⟩ := undentAll_eq_error hall
      -- the lines that are dropped before the others are counted, and none of them is outdented
      refine ⟨opening ++ before, l, after ++ closing, ?_, fun b hb hout => ?_,
        undent_eq_none_iff.1 hl, ?_⟩
      · conv_lhs => rw [hlines, hkept]
        simp
      · rcases List.mem_append.1 hb with hb | hb
        · exact absurd (hopening b hb) (by simp [hout.1])
        · exact hbefore b hb (undent_eq_none_iff.2 hout)
      · rw [List.length_append, hlength, Nat.add_assoc]

theorem exists_error_of_outdented (hl : l ∈ linesOf s) (hout : Outdented (linesOf s) l) :
    ∃ f, normalize s location = .error f := by
  cases hfirst : (linesOf s).find? (!isBlankText ·) with
  | none =>
    have hblank := List.find?_eq_none.1 hfirst l hl
    exact absurd hout.1 (by simpa using hblank)
  | some first =>
    rw [normalize_of_some hfirst]
    cases hall : undentAll (indentation (linesOf s)) location
        (location.line + (dropOpening (linesOf s)).1) (kept (linesOf s)) with
    | error e => exact ⟨e, rfl⟩
    | ok outs =>
      exact absurd (undent_eq_none_iff.2 hout) (undent_of_undentAll hall l (mem_kept hl hout.1))

/-! ### Indenting -/

/-- The line behind white space, unless it is empty. -/
def indented (w l : List Char) : List Char := if l = [] then [] else w ++ l

/-- Indented lines between a line break and a line of the indentation alone. -/
def delimited (w : List Char) (lines : List (List Char)) : List Char :=
  '\n' :: (join '\n' (lines.map (indented w)) ++ '\n' :: w)

/-- Lines of which none is blank without being empty or ends with a carriage return, and the first
one that is not empty stands flush. -/
structure Flush (lines : List (List Char)) : Prop where
  unbroken : ∀ l ∈ lines, '\n' ∉ l
  filled : ∀ l ∈ lines, l ≠ [] → ∃ c ∈ l, isBlank c = false
  unreturned : ∀ l ∈ lines, l.getLast? ≠ some '\r'
  first : ∃ before c rest after, lines = before ++ (c :: rest) :: after ∧ (∀ b ∈ before, b = []) ∧
    isBlank c = false

theorem Flush.ne_nil (h : Flush lines) : lines ≠ [] := by
  obtain ⟨before, c, rest, after, rfl, -⟩ := h.first
  simp

theorem Flush.undent_indented (h : Flush lines) (hl : l ∈ lines) :
    undent w (indented w l) = some l := by
  by_cases hempty : l = []
  · simp [hempty, indented, undent, isBlankText]
  · obtain ⟨c, hc, hblank⟩ := h.filled l hl hempty
    have hfilled : isBlankText (w ++ l) = false := by
      simp only [isBlankText, List.all_append, Bool.and_eq_false_iff, List.all_eq_false]
      exact .inr ⟨c, hc, by simp [hblank]⟩
    rw [indented, if_neg hempty, undent, hfilled, if_neg Bool.false_ne_true, after?_append,
      Option.map_some, dropReturns_of_getLast? (h.unreturned l hl)]

/-- The lines of a delimited text: a blank one, those that were indented, and a blank one. -/
theorem Flush.linesOf_delimited (h : Flush lines) (hw : ∀ c ∈ w, c ≠ '\n') :
    linesOf (delimited w lines) = [] :: (lines.map (indented w) ++ [w]) := by
  have hbreak : '\n' ∉ w := fun hmem => hw '\n' hmem rfl
  have hne : lines.map (indented w) ≠ [] := by simpa using h.ne_nil
  rw [linesOf, split_eq_iff]
  refine ⟨List.cons_ne_nil _ _, fun piece hpiece => ?_, ?_⟩
  · simp only [List.mem_cons, List.mem_append, List.mem_map, List.not_mem_nil, or_false] at hpiece
    rcases hpiece with rfl | ⟨l, hl, rfl⟩ | rfl
    · exact List.not_mem_nil
    · have hl := h.unbroken l hl
      unfold indented
      split
      · exact List.not_mem_nil
      · simp [hbreak, hl]
    · exact hbreak
  · rw [join_cons (by simp), join_concat hne]
    rfl

/-- The first line of a delimited text that is not blank has the white space and stands flush
behind it. -/
theorem Flush.find?_delimited (h : Flush lines) (hw : ∀ c ∈ w, isBlank c = true) :
    ∃ first, ([] :: (lines.map (indented w) ++ [w])).find? (!isBlankText ·) = some first ∧
      first.takeWhile isBlank = w := by
  obtain ⟨before, c, rest, after, rfl, hbefore, hc⟩ := h.first
  have hskip : ∀ l ∈ [] :: before.map (indented w), isBlankText l = true := by
    simp only [List.mem_cons, List.mem_map]
    rintro _ (rfl | ⟨b, hb, rfl⟩)
    · rfl
    · simp [hbefore b hb, indented, isBlankText]
  refine ⟨w ++ c :: rest, List.find?_eq_some_iff_append.2 ⟨by simp [isBlankText, hc],
    [] :: before.map (indented w), after.map (indented w) ++ [w], ?_, by simpa using hskip⟩, ?_⟩
  · simp [indented]
  · rw [List.takeWhile_append_of_pos hw, List.takeWhile_cons_of_neg (by simp [hc]),
      List.append_nil]

theorem Flush.normalize_delimited (h : Flush lines)
    (hw : ∀ c ∈ w, isBlank c = true ∧ c ≠ '\n') :
    normalize (delimited w lines) location = .ok (join '\n' lines) := by
  have hlines := h.linesOf_delimited fun c hc => (hw c hc).2
  obtain ⟨first, hfirst, hindent⟩ := h.find?_delimited fun c hc => (hw c hc).1
  have hne : lines.map (indented w) ≠ [] := by simpa using h.ne_nil
  have hblank : isBlankText w = true := List.all_eq_true.2 fun c hc => (hw c hc).1
  have hkept : kept ([] :: (lines.map (indented w) ++ [w])) = lines.map (indented w) := by
    rw [kept, dropOpening_cons rfl (by simp), dropClosing_concat hblank hne]
  have hundent : List.Forall₂ (fun l out => undent w l = some out)
      (lines.map (indented w)) lines :=
    List.forall₂_map_left_iff.2 (List.forall₂_same.2 fun l hl => h.undent_indented hl)
  rw [← hlines] at hfirst hkept
  rw [normalize_of_some hfirst, indentation, hfirst, Option.getD_some, hindent, hkept,
    undentAll_eq_ok hundent]
  rfl

/-! ### Both ways -/

/-- Indented lines come back as they were. A text is refused exactly if there is an outdented line,
and the line that is reported is the first such one. -/
theorem normalize_lines :
    (∀ lines w location, Flush lines → (∀ c ∈ w, isBlank c = true ∧ c ≠ '\n') →
      normalize (delimited w lines) location = .ok (join '\n' lines)) ∧
    (∀ s location, (∃ f, normalize s location = .error f) ↔
      ∃ l ∈ linesOf s, Outdented (linesOf s) l) ∧
    ∀ s location f, normalize s location = .error f →
      ∃ before l after, linesOf s = before ++ l :: after ∧
        (∀ b ∈ before, ¬Outdented (linesOf s) b) ∧ Outdented (linesOf s) l ∧
        f = (Cause.badIndentation (location.line + before.length)).at location := by
  refine ⟨fun lines w location h hw => h.normalize_delimited hw, fun s location => ⟨?_, ?_⟩,
    fun s location f => normalize_eq_error⟩
  · rintro ⟨f, h⟩
    obtain ⟨before, l, after, hlines, -, hl, -⟩ := normalize_eq_error h
    exact ⟨l, by simp [hlines], hl⟩
  · rintro ⟨l, hl, hout⟩
    exact exists_error_of_outdented hl hout

/-- An empty line has no indentation and keeps none, and a line behind it has more than the first;
and of two outdented lines it is the first one that is reported, as line 12 of its source. -/
theorem normalize_lines_mixed :
    normalize (delimited ['\t', ' '] [['a'], [], [' ', 'b']]) ⟨"test.sdl", 10, 3⟩ =
        .ok ['a', '\n', '\n', ' ', 'b'] ∧
      (∃ f, normalize ['\n', ' ', 'a', '\n', 'b', '\n', 'c'] ⟨"test.sdl", 10, 3⟩ = .error f) ∧
      ∃ before l after, linesOf ['\n', ' ', 'a', '\n', 'b', '\n', 'c'] = before ++ l :: after ∧
        (∀ b ∈ before, ¬Outdented (linesOf ['\n', ' ', 'a', '\n', 'b', '\n', 'c']) b) ∧
        Outdented (linesOf ['\n', ' ', 'a', '\n', 'b', '\n', 'c']) l ∧
        (Cause.badIndentation 12).at ⟨"test.sdl", 10, 3⟩ =
          (Cause.badIndentation (10 + before.length)).at ⟨"test.sdl", 10, 3⟩ :=
  have hflush : Flush [['a'], [], [' ', 'b']] :=
    ⟨by decide, by simp [isBlank], by decide,
      [], 'a', [], [[], [' ', 'b']], rfl, by simp, by decide⟩
  ⟨normalize_lines.1 _ _ _ hflush (by simp [isBlank]),
    (normalize_lines.2.1 _ _).2 ⟨['b'], by decide⟩,
    normalize_lines.2.2 _ ⟨"test.sdl", 10, 3⟩ ((Cause.badIndentation 12).at ⟨"test.sdl", 10, 3⟩)
      rfl⟩

end Schemata.Text
