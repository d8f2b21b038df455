import Schemata.Failure
import Schemata.Text.Blank
import Schemata.Text.Split

/-! Multi-line text without its indentation.

A text between delimiters may start on the line after the opening one and end on
the line before the closing one; such blank lines at its ends are dropped. The
white space before the first line that is not blank is the indentation, which
every other line that is not blank must have too. Blank lines become empty. -/
namespace Schemata.Text

/-- Without carriage returns at the end. -/
def dropReturns (s : List Char) : List Char := (s.reverse.dropWhile (· == '\r')).reverse

/-- What follows a prefix, if the text starts with it. -/
def after? : List Char → List Char → Option (List Char)
  | [], s => some s
  | _ :: _, [] => none
  | p :: rest, c :: s => if p = c then after? rest s else none

/-- A line without the indentation; `none` if it is not blank and has not got it. -/
def undent (indent line : List Char) : Option (List Char) :=
  if isBlankText line then some []
  else (after? indent line).map dropReturns

/-- Without a blank first line, and how many lines that are. -/
def dropOpening : List (List Char) → Nat × List (List Char)
  | first :: second :: rest =>
    if isBlankText first then (1, second :: rest) else (0, first :: second :: rest)
  | lines => (0, lines)

/-- Without a blank last line, unless it is the only one. -/
def dropClosing (lines : List (List Char)) : List (List Char) :=
  if 1 < lines.length && (lines.getLast?).any isBlankText then lines.dropLast else lines

/-- Every line without the indentation, where the first one has number `line`. -/
def undentAll (indent : List Char) (location : Location) :
    Nat → List (List Char) → Except Failure (List (List Char))
  | _, [] => .ok []
  | line, l :: rest =>
    match undent indent l with
    | none => .error ((Cause.badIndentation line).at location)
    | some text => (undentAll indent location (line + 1) rest).map (text :: ·)

/-- The text between delimiters whose opening one is at `location`. -/
def normalize (text : List Char) (location : Location) : Except Failure (List Char) :=
  let (dropped, lines) := dropOpening (split (· == '\n') text)
  let content := dropClosing lines
  match content.find? (!isBlankText ·) with
  | none => .ok []
  | some first =>
    (undentAll (first.takeWhile isBlank) location (location.line + dropped) content).map (join '\n')

end Schemata.Text
