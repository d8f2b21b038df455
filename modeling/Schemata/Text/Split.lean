/-! Cutting a text at separators.

`splitAt` gives the pieces between all separators, one more than there are
separators; `cut` gives what stands before and after the first one. Joining the
pieces of a split gives the text back (`join_split`). -/
namespace Schemata.Text

variable (sep : Char → Bool)

/-- The pieces between the separators: the first one, and those after it. -/
def splitPieces : List Char → List Char × List (List Char)
  | [] => ([], [])
  | c :: rest =>
    let pieces := splitPieces rest
    if sep c then ([], pieces.1 :: pieces.2) else (c :: pieces.1, pieces.2)

/-- The pieces between the separators, in order; never none. -/
def split (s : List Char) : List (List Char) := (splitPieces sep s).1 :: (splitPieces sep s).2

/-- What stands before and after the first separator. -/
def cut (s : List Char) : Option (List Char × List Char) :=
  match s.dropWhile (!sep ·) with
  | [] => none
  | _ :: rest => some (s.takeWhile (!sep ·), rest)

/-- Pieces with a separator between each two. -/
def join (c : Char) : List (List Char) → List Char
  | [] => []
  | [piece] => piece
  | piece :: rest => piece ++ c :: join c rest

theorem split_ne_nil (s : List Char) : split sep s ≠ [] := by simp [split]

theorem join_cons {c : Char} {piece : List Char} {rest : List (List Char)} (h : rest ≠ []) :
    join c (piece :: rest) = piece ++ c :: join c rest := by
  cases rest with
  | nil => exact absurd rfl h
  | cons _ _ => rfl

theorem split_cons_of_sep {c : Char} (s : List Char) (h : sep c = true) :
    split sep (c :: s) = [] :: split sep s := by
  simp [split, splitPieces, h]

theorem join_split (c : Char) (s : List Char) : join c (split (· == c) s) = s := by
  induction s with
  | nil => rfl
  | cons d rest ih =>
    by_cases h : d = c
    · subst h
      rw [split_cons_of_sep _ _ (by simp), join_cons (split_ne_nil _ _), ih]
      rfl
    · have hb : (d == c) = false := by simpa using h
      cases hp : splitPieces (· == c) rest with
      | mk first others =>
        simp only [split, hp] at ih
        simp only [split, splitPieces, hb, hp]
        cases others with
        | nil => simpa [join] using congrArg (d :: ·) ih
        | cons _ _ => simpa [join] using congrArg (d :: ·) ih

end Schemata.Text
