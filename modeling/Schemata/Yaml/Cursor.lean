import Schemata.Text.Hex

/-! Places in YAML text, and the scalars that start there.

Line breaks are a line feed, a carriage return with or without one, and three
more characters; the next-line character counts as a line feed, the line and
paragraph separators stand for themselves. White space within a scalar folds: of
breaks with nothing between them the first becomes a space if it is the only one,
and is dropped otherwise. -/
namespace Schemata.Yaml

/-- What is left of a text, and how far the place is from the start of the text and of its line. -/
structure Cursor where
  rest : List Char
  index : Nat := 0
  line : Nat := 0
  column : Nat := 0

def isBlank (c : Char) : Bool := c = ' ' || c = '\t'

def isBreak (c : Char) : Bool :=
  c = '\n' || c = '\r' || c = '\x85' || c = '\u2028' || c = '\u2029'

/-- Nothing, a blank or a break comes first. -/
def startsBlank : List Char → Bool
  | [] => true
  | c :: _ => isBlank c || isBreak c || c = '\x00'

namespace Cursor

variable (cur : Cursor)

def next? : Option Char := cur.rest.head?

/-- Past some characters of the same line. -/
def skip (n : Nat) : Cursor :=
  { cur with rest := cur.rest.drop n, index := cur.index + n, column := cur.column + n }

/-- Past a line break, which is yielded in its normal form. -/
def skipBreak : Char × Cursor :=
  match cur.rest with
  | '\r' :: '\n' :: rest => ('\n', ⟨rest, cur.index + 2, cur.line + 1, 0⟩)
  | c :: rest =>
    (if c = '\u2028' || c = '\u2029' then c else '\n', ⟨rest, cur.index + 1, cur.line + 1, 0⟩)
  | [] => ('\n', cur)

/-- The mark of a document's start or end stands here. -/
def atDocumentMark : Bool :=
  cur.column = 0 &&
    match cur.rest with
    | '-' :: '-' :: '-' :: rest => startsBlank rest
    | '.' :: '.' :: '.' :: rest => startsBlank rest
    | _ => false

end Cursor

/-! ### White space within scalars -/

/-- White space between parts of a scalar. -/
structure Gap where
  /-- Blanks, as long as there is no break. -/
  blanks : List Char := []
  broken : Bool := false
  /-- The first break, unless it was escaped. -/
  first : List Char := []
  others : List Char := []

/-- What a gap comes down to. -/
def Gap.fold (g : Gap) : List Char :=
  if !g.broken then g.blanks
  else if g.first = ['\n'] then (if g.others.isEmpty then [' '] else g.others)
  else g.first ++ g.others

/-- Past white space. On a new line a tab must not stand to the left of `margin`. -/
def skipGap (margin : Nat) : Nat → Gap → Cursor → Option (Gap × Cursor)
  | 0, _, _ => none
  | left + 1, g, cur =>
    match cur.next? with
    | none => some (g, cur)
    | some c =>
      if isBlank c then
        if g.broken then
          if c = '\t' && cur.column < margin then none else skipGap margin left g (cur.skip 1)
        else skipGap margin left { g with blanks := g.blanks ++ [c] } (cur.skip 1)
      else if isBreak c then
        let (b, past) := cur.skipBreak
        let g : Gap :=
          if g.broken then { g with others := g.others ++ [b] }
          else { blanks := [], broken := true, first := [b] }
        skipGap margin left g past
      else some (g, cur)

/-! ### Plain scalars -/

def isFlowMark (c : Char) : Bool := c = ',' || c = '[' || c = ']' || c = '\x7b' || c = '\x7d'

/-- The characters of a plain scalar up to white space or a mark that ends it. Within flow
collections a colon must not have such a mark right behind it. -/
def plainRun (flow : Bool) : List Char → Option (List Char)
  | [] => some []
  | c :: rest =>
    if startsBlank (c :: rest) then some []
    else if flow && c = ':' && (rest.head?).any (fun d => isFlowMark d || d = '?') then none
    else if (c = ':' && startsBlank rest) || (flow && isFlowMark c) then some []
    else (plainRun flow rest).map (c :: ·)

/-- A plain scalar: its text, whether a line break follows, and the place behind it. -/
structure Plain where
  text : List Char
  broken : Bool
  cursor : Cursor

/-- Goes on with a plain scalar that has `text` and the gap `g` so far. -/
def readPlain (flow : Bool) (margin : Nat) : Nat → List Char → Gap → Cursor → Option Plain
  | 0, _, _, _ => none
  | left + 1, text, g, cur =>
    if cur.atDocumentMark || cur.next? = some '#' then some ⟨text, g.broken, cur⟩
    else do
      let run ← plainRun flow cur.rest
      let (text, g) := if run.isEmpty then (text, g) else (text ++ g.fold ++ run, {})
      let cur := cur.skip run.length
      match cur.next? with
      | none => some ⟨text, g.broken, cur⟩
      | some c =>
        if isBlank c || isBreak c then do
          let (g, cur) ← skipGap margin (cur.rest.length + 1) g cur
          if !flow && cur.column < margin then some ⟨text, g.broken, cur⟩
          else readPlain flow margin left text g cur
        else some ⟨text, g.broken, cur⟩

/-! ### Quoted scalars -/

/-- The characters that one letter behind a backslash stands for. -/
def simpleEscape? : Char → Option Char
  | '0' => some '\x00'
  | 'a' => some '\x07'
  | 'b' => some '\x08'
  | 't' => some '\t'
  | '\t' => some '\t'
  | 'n' => some '\n'
  | 'v' => some '\x0b'
  | 'f' => some '\x0c'
  | 'r' => some '\r'
  | 'e' => some '\x1b'
  | ' ' => some ' '
  | '"' => some '"'
  | '/' => some '/'
  | '\\' => some '\\'
  | 'N' => some '\x85'
  | '_' => some '\xa0'
  | 'L' => some '\u2028'
  | 'P' => some '\u2029'
  | _ => none

/-- How many digits follow one letter behind a backslash. -/
def escapeDigits? : Char → Option Nat
  | 'x' => some 2
  | 'u' => some 4
  | 'U' => some 8
  | _ => none

/-- The character of an escape whose letter comes first, and how long the escape is. -/
def readEscape : List Char → Option (Char × Nat)
  | [] => none
  | c :: rest =>
    match simpleEscape? c with
    | some d => some (d, 1)
    | none => do
      let digits ← escapeDigits? c
      let (n, _) ← Text.takeHex digits 0 rest
      if (0xD800 ≤ n ∧ n ≤ 0xDFFF) ∨ 0x10FFFF < n then none
      else some (Char.ofNat n, digits + 1)

/-- A part of a quoted scalar without white space: the characters, the place behind them, and
whether an escaped line break ends it. -/
def quotedRun (double : Bool) : Nat → Cursor → Option (List Char × Cursor × Bool)
  | 0, _ => none
  | left + 1, cur =>
    match cur.rest with
    | [] => some ([], cur, false)
    | c :: rest =>
      if startsBlank (c :: rest) then some ([], cur, false)
      else if !double && c = '\'' && rest.head? = some '\'' then do
        let (cs, past, escaped) ← quotedRun double left (cur.skip 2)
        return ('\'' :: cs, past, escaped)
      else if c = (if double then '"' else '\'') then some ([], cur, false)
      else if double && c = '\\' && (rest.head?).any isBreak then
        some ([], ((cur.skip 1).skipBreak).2, true)
      else if double && c = '\\' then do
        let (d, length) ← readEscape rest
        let (cs, past, escaped) ← quotedRun double left (cur.skip (length + 1))
        return (d :: cs, past, escaped)
      else do
        let (cs, past, escaped) ← quotedRun double left (cur.skip 1)
        return (c :: cs, past, escaped)

/-- Goes on with a quoted scalar that has `text` so far, up to its closing quote. -/
def readQuoted (double : Bool) : Nat → List Char → Cursor → Option (List Char × Cursor)
  | 0, _, _ => none
  | left + 1, text, cur =>
    if cur.atDocumentMark || cur.rest.isEmpty || cur.next? = some '\x00' then none
    else do
      let (run, cur, escaped) ← quotedRun double (cur.rest.length + 1) cur
      if !escaped && cur.next? = some (if double then '"' else '\'') then
        return (text ++ run, cur.skip 1)
      else do
        let (g, cur) ← skipGap 0 (cur.rest.length + 1) { broken := escaped } cur
        readQuoted double left (text ++ run ++ g.fold) cur

end Schemata.Yaml
