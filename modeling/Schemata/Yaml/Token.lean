import Schemata.Yaml.Cursor

/-! The tokens of YAML text.

Layout becomes tokens: a line that is indented further than what it belongs to
opens a block, and one that is indented less closes it. Whether something is the
key of a mapping is only known once the colon behind it is met, so that the
tokens that open a mapping and mark a key are put before tokens already there.
`Token.ofText` gives the tokens of a text, unless it breaks the rules of layout
or uses an alias, an anchor, a tag, a directive or a block scalar. -/
namespace Schemata.Yaml

inductive Token
  | documentStart
  | documentEnd
  | blockSequence
  | blockMapping
  | blockEnd
  | flowSequence
  | flowSequenceEnd
  | flowMapping
  | flowMappingEnd
  /-- The dash before an item of a block. -/
  | blockEntry
  /-- The comma between items of a flow collection. -/
  | flowEntry
  | key
  | value
  | plain (text : String)
  | quoted (text : String)
deriving DecidableEq, Repr, Inhabited

/-- Something that is a key if a colon follows it. -/
structure PossibleKey where
  /-- It stands where nothing but a key may stand. -/
  required : Bool
  /-- How many tokens there were before it. -/
  position : Nat
  index : Nat
  line : Nat
  column : Nat

/-- How far a text has been read, and what its layout has opened. -/
structure Layout where
  cursor : Cursor
  tokens : List Token := []
  /-- The indentation of the innermost block, less than zero outside of any. -/
  indent : Int := -1
  /-- Those of the blocks around it, the innermost first. -/
  outer : List Int := []
  /-- For every open flow collection, the innermost first, and outside of any: what may be a key. -/
  keys : List (Option PossibleKey) := [none]
  keyAllowed : Bool := true

namespace Layout

variable (l : Layout)

/-- Within a flow collection. -/
def inFlow : Bool := 1 < l.keys.length

def push (token : Token) : Layout := { l with tokens := l.tokens ++ [token] }

/-- With a token before those from `position` on. -/
def insertAt (position : Nat) (token : Token) : Layout :=
  { l with tokens := l.tokens.take position ++ token :: l.tokens.drop position }

def skip (n : Nat) : Layout := { l with cursor := l.cursor.skip n }

/-! ### Possible keys -/

/-- What might have been a key is none, which it must not be if it had to be one. -/
def dropKey : Option Layout :=
  match l.keys with
  | some k :: rest => if k.required then none else some { l with keys := none :: rest }
  | _ => some l

/-- What stands here may be a key. -/
def saveKey : Option Layout :=
  if l.keyAllowed then do
    let l ← l.dropKey
    let key : PossibleKey :=
      { required := !l.inFlow && l.indent = l.cursor.column, position := l.tokens.length
        index := l.cursor.index, line := l.cursor.line, column := l.cursor.column }
    return { l with keys := some key :: l.keys.tail }
  else some l

/-- A key and its colon stand on one line, with at most 1024 characters between their starts. -/
def isStale (k : PossibleKey) : Bool :=
  k.line < l.cursor.line || k.index + 1024 < l.cursor.index

def dropStaleKeys : Option Layout := do
  let keys ← l.keys.mapM fun k =>
    match k with
    | some k => if l.isStale k then (if k.required then none else some none) else some (some k)
    | none => some none
  return { l with keys }

/-! ### Blocks -/

/-- Opens a block, if the column is to the right of the block that is open. -/
def openBlock (column : Nat) (position : Nat) (token : Token) : Layout :=
  if !l.inFlow && l.indent < column then
    { l.insertAt position token with indent := column, outer := l.indent :: l.outer }
  else l

/-- Closes the blocks that are indented further than `column`. -/
def closeBlocks (column : Int) : List Int → Layout → Layout
  | outer :: rest, l =>
    if !l.inFlow && column < l.indent then
      closeBlocks column rest { l.push .blockEnd with indent := outer, outer := rest }
    else l
  | [], l => l

def closeTo (column : Int) : Layout := closeBlocks column l.outer l

/-! ### White space between tokens -/

/-- Past white space, comments and line breaks. Where a key may start, tabs are no white space. -/
def skipSpace : Nat → Layout → Layout
  | 0, l => l
  | left + 1, l =>
    match l.cursor.next? with
    | none => l
    | some c =>
      if c = '\ufeff' && l.cursor.column = 0 then skipSpace left (l.skip 1)
      else if c = ' ' || (c = '\t' && (l.inFlow || !l.keyAllowed)) then skipSpace left (l.skip 1)
      else if c = '#' then
        skipSpace left (l.skip (l.cursor.rest.takeWhile fun d => !isBreak d).length)
      else if isBreak c then
        skipSpace left { l with cursor := l.cursor.skipBreak.2
                                keyAllowed := l.keyAllowed || !l.inFlow }
      else l

/-! ### Tokens -/

/-- The mark of a document's start or end. -/
def addDocumentMark (token : Token) : Option Layout := do
  let l ← (l.closeTo (-1)).dropKey
  return ({ l with keyAllowed := false }.push token).skip 3

def openFlow (token : Token) : Option Layout := do
  let l ← l.saveKey
  return ({ l with keys := none :: l.keys, keyAllowed := true }.push token).skip 1

def closeFlow (token : Token) : Option Layout := do
  let l ← l.dropKey
  let keys := if l.inFlow then l.keys.tail else l.keys
  return ({ l with keys, keyAllowed := false }.push token).skip 1

def addFlowEntry : Option Layout := do
  let l ← l.dropKey
  return ({ l with keyAllowed := true }.push .flowEntry).skip 1

def addBlockEntry : Option Layout := do
  if !l.inFlow && !l.keyAllowed then none
  let l ← (l.openBlock l.cursor.column l.tokens.length .blockSequence).dropKey
  return ({ l with keyAllowed := true }.push .blockEntry).skip 1

def addKey : Option Layout := do
  if !l.inFlow && !l.keyAllowed then none
  let l ← (l.openBlock l.cursor.column l.tokens.length .blockMapping).dropKey
  return ({ l with keyAllowed := !l.inFlow }.push .key).skip 1

/-- The colon behind a key, which is what might have been one, or nothing. -/
def addValue : Option Layout :=
  match l.keys with
  | some k :: rest =>
    let l := { l.insertAt k.position .key with keys := none :: rest, keyAllowed := false }
    some (((l.openBlock k.column k.position .blockMapping).push .value).skip 1)
  | _ =>
    if !l.inFlow && !l.keyAllowed then none
    else
      let l := l.openBlock l.cursor.column l.tokens.length .blockMapping
      some (({ l with keyAllowed := !l.inFlow }.push .value).skip 1)

def addQuoted (double : Bool) : Option Layout := do
  let l ← l.saveKey
  let (text, cursor) ← readQuoted double (l.cursor.rest.length + 1) [] (l.cursor.skip 1)
  return { l with cursor, keyAllowed := false }.push (.quoted (String.ofList text))

def addPlain : Option Layout := do
  let l ← l.saveKey
  let plain ← readPlain l.inFlow (l.indent + 1).toNat (l.cursor.rest.length + 1) [] {} l.cursor
  return { l with cursor := plain.cursor, keyAllowed := plain.broken }.push
    (.plain (String.ofList plain.text))

/-- Characters with which no plain scalar starts, unless something else decides. -/
def isMark (c : Char) : Bool := "-?:,[]\x7b\x7d#&*!|>'\"%@".toList.contains c || c.toNat = 0x60

/-- Whether a plain scalar may start here. -/
def startsPlain (c : Char) (rest : List Char) : Bool :=
  !(isMark c || startsBlank (c :: rest)) ||
    (c = '-' && !(rest.head?).any isBlank) ||
    (!l.inFlow && (c = '?' || c = ':') && !startsBlank rest)

/-- The next token; `c` is its first character, and `rest` what follows that. -/
def addToken (c : Char) (rest : List Char) : Option Layout :=
  if l.cursor.atDocumentMark then
    l.addDocumentMark (if c = '-' then .documentStart else .documentEnd)
  else
    match c with
    | '[' => l.openFlow .flowSequence
    | '\x7b' => l.openFlow .flowMapping
    | ']' => l.closeFlow .flowSequenceEnd
    | '\x7d' => l.closeFlow .flowMappingEnd
    | ',' => l.addFlowEntry
    | '\'' => l.addQuoted false
    | '"' => l.addQuoted true
    | _ =>
      if c = '-' && startsBlank rest then l.addBlockEntry
      else if c = '?' && (l.inFlow || startsBlank rest) then l.addKey
      else if c = ':' && (l.inFlow || startsBlank rest) then l.addValue
      else if l.startsPlain c rest then l.addPlain
      else none

/-- The tokens from here to the end of the text. -/
def addAll : Nat → Layout → Option (List Token)
  | 0, _ => none
  | left + 1, l => do
    let l ← (l.skipSpace (l.cursor.rest.length + 1)).dropStaleKeys
    let l := l.closeTo l.cursor.column
    match l.cursor.rest with
    | [] => do
      let l ← (l.closeTo (-1)).dropKey
      return l.tokens
    | c :: rest => addAll left (← l.addToken c rest)

end Layout

/-- Characters that may stand in YAML text. -/
def isPrintable (c : Char) : Bool :=
  let n := c.toNat
  n = 9 || n = 0xA || n = 0xD || (0x20 ≤ n && n ≤ 0x7E) || n = 0x85 ||
    (0xA0 ≤ n && n ≤ 0xFFFD) || 0x10000 ≤ n

def Token.ofText (text : List Char) : Option (List Token) :=
  if text.all isPrintable then Layout.addAll (text.length + 2) { cursor := { rest := text } }
  else none

end Schemata.Yaml
