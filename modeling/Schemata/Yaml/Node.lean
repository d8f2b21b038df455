import Schemata.Number.Shortest
import Schemata.Yaml.Plain
import Schemata.Yaml.Token

/-! What YAML text says.

A text is one document: nothing, a scalar, a sequence or a mapping. Collections
are nested at most 128 deep, and no key occurs in a mapping twice. -/
namespace Schemata.Yaml

inductive Node
  | word (w : Word)
  | sequence (items : List Node)
  | mapping (pairs : List (Node × Node))
deriving Inhabited

namespace Node

def null : Node := .word .null
def text (s : String) : Node := .word (.text s)

/-! ### Sameness of keys -/

/-- Numbers of one notation with one value; all that is no number is the same. -/
def sameWord : Word → Word → Bool
  | .null, .null => true
  | .bool a, .bool b => a == b
  | .int i, .int j => i == j
  | .number x, .number y => x == y || (x.isNaN && y.isNaN)
  | .text s, .text t => s == t
  | _, _ => false

mutual

def same : Node → Node → Bool
  | .word a, .word b => sameWord a b
  | .sequence as, .sequence bs => sameItems as bs
  | .mapping ps, .mapping qs => ps.length == qs.length && withinPairs ps qs
  | _, _ => false

def sameItems : List Node → List Node → Bool
  | [], [] => true
  | a :: as, b :: bs => a.same b && sameItems as bs
  | _, _ => false

/-- Every pair of one mapping is among those of another. -/
def withinPairs : List (Node × Node) → List (Node × Node) → Bool
  | [], _ => true
  | p :: ps, qs => qs.any (fun q => p.1.same q.1 && p.2.same q.2) && withinPairs ps qs

end

/-- Whether a key occurs twice. -/
def hasRepeatedKey : List (Node × Node) → Bool
  | [] => false
  | p :: rest => rest.any (fun q => p.1.same q.1) || hasRepeatedKey rest

/-- The mapping of these pairs, unless a key occurs twice. -/
def ofPairs (pairs : List (Node × Node)) : Option Node :=
  if hasRepeatedKey pairs then none else some (.mapping pairs)

/-! ### From tokens -/

/-- The start of a list of tokens read as something, and what follows it. -/
abbrev Reader (α : Type) := List Token → Option (α × List Token)

/-- Where a node may stand: in a block, and perhaps as a sequence that is not indented. -/
inductive Place
  | flow
  | block
  | blockValue
deriving DecidableEq, Repr

/-- A node, or nothing where one of `stops` comes first. -/
def orNull (stops : List Token) (node : Reader Node) : Reader Node := fun ts =>
  match ts with
  | t :: _ => if t ∈ stops then some (null, ts) else node ts
  | [] => node ts

variable (node : Place → Reader Node)

/-- Dashes with items, up to the end of the block. -/
def blockItems : Nat → Reader (List Node)
  | 0, _ => none
  | left + 1, ts =>
    match ts with
    | .blockEntry :: rest => do
      let (item, rest) ← orNull [.blockEntry, .blockEnd] (node .block) rest
      let (items, rest) ← blockItems left rest
      return (item :: items, rest)
    | .blockEnd :: rest => some ([], rest)
    | _ => none

/-- Dashes with items that are not indented, as long as there are any. -/
def plainItems : Nat → Reader (List Node)
  | 0, _ => none
  | left + 1, ts =>
    match ts with
    | .blockEntry :: rest => do
      let (item, rest) ← orNull [.blockEntry, .key, .value, .blockEnd] (node .block) rest
      let (items, rest) ← plainItems left rest
      return (item :: items, rest)
    | _ => some ([], ts)

/-- A value behind its colon, or nothing. -/
def readValue (stops : List Token) (place : Place) : Reader Node := fun ts =>
  match ts with
  | .value :: rest => orNull stops (node place) rest
  | _ => some (null, ts)

/-- Keys with values, up to the end of the block. -/
def blockPairs : Nat → Reader (List (Node × Node))
  | 0, _ => none
  | left + 1, ts =>
    match ts with
    | .key :: rest => do
      let stops := [.key, .value, .blockEnd]
      let (k, rest) ← orNull stops (node .blockValue) rest
      let (v, rest) ← readValue node stops .blockValue rest
      let (pairs, rest) ← blockPairs left rest
      return ((k, v) :: pairs, rest)
    | .blockEnd :: rest => some ([], rest)
    | _ => none

/-- A single pair, which is a mapping by itself within a flow sequence. -/
def singlePair : Reader Node := fun ts => do
  let (k, rest) ← orNull [.value, .flowEntry, .flowSequenceEnd] (node .flow) ts
  let (v, rest) ← readValue node [.flowEntry, .flowSequenceEnd] .flow rest
  return (.mapping [(k, v)], rest)

def flowItem : Reader Node := fun ts =>
  match ts with
  | .key :: rest => singlePair node rest
  | _ => node .flow ts

def flowPair : Reader (Node × Node) := fun ts =>
  match ts with
  | .key :: rest => do
    let (k, rest) ← orNull [.value, .flowEntry, .flowMappingEnd] (node .flow) rest
    let (v, rest) ← readValue node [.flowEntry, .flowMappingEnd] .flow rest
    return ((k, v), rest)
  | _ => (node .flow ts).map fun (k, rest) => ((k, null), rest)

/-- Items with commas between them, and perhaps one behind the last. -/
def flowItems {α : Type} (item : Reader α) (close : Token) : Nat → Reader (List α)
  | 0, _ => none
  | left + 1, ts =>
    if ts.head? = some close then some ([], ts.tail)
    else do
      let (a, rest) ← item ts
      match rest with
      | .flowEntry :: rest => do
        let (as, rest) ← flowItems item close left rest
        return (a :: as, rest)
      | t :: rest => if t = close then some ([a], rest) else none
      | [] => none

/-- A sequence or a mapping whose items are read by `node`. -/
def readCollection (place : Place) : Reader Node := fun ts =>
  let bound := ts.length + 1
  match place, ts with
  | _, .flowSequence :: rest =>
    (flowItems (flowItem node) .flowSequenceEnd bound rest).map fun (items, rest) =>
      (.sequence items, rest)
  | _, .flowMapping :: rest => do
    let (pairs, rest) ← flowItems (flowPair node) .flowMappingEnd bound rest
    return (← ofPairs pairs, rest)
  | .flow, _ => none
  | .blockValue, .blockEntry :: _ =>
    (plainItems node bound ts).map fun (items, rest) => (.sequence items, rest)
  | _, .blockSequence :: rest =>
    (blockItems node bound rest).map fun (items, rest) => (.sequence items, rest)
  | _, .blockMapping :: rest => do
    let (pairs, rest) ← blockPairs node bound rest
    return (← ofPairs pairs, rest)
  | _, _ => none

/-- A node in which collections are nested at most so deep. -/
def readNode : Nat → Place → Reader Node
  | depth, place, ts =>
    match ts with
    | .plain s :: rest => (readWord s.toList).map fun w => (.word w, rest)
    | .quoted s :: rest => some (text s, rest)
    | _ =>
      match depth with
      | 0 => none
      | depth + 1 => readCollection (readNode depth) place ts

/-! ### From text -/

/-- What is left behind a document: marks of its end, and nothing else. -/
def isEnd (ts : List Token) : Bool := ts.all (· = .documentEnd)

/-- The document that a text writes, if it writes one. -/
def ofText (text : List Char) : Option Node := do
  let ts ← Token.ofText text
  let (node, rest) ← match ts with
    | [] => some (null, [])
    | .documentStart :: [] => some (null, [])
    | .documentStart :: rest =>
      orNull [.documentStart, .documentEnd] (readNode 128 .block) rest
    | _ => readNode 128 .block ts
  if isEnd rest then some node else none

/-! ### Description -/

/-- The shortest digits of a double, a tie to the even ones, with a point or an exponent: positional
from `0.00001` to below `1e16`. -/
def numberText (x : Float) : String :=
  let sign := if Number.isNegative x then "-" else ""
  if x.isNaN then ".nan"
  else if x.isInf then sign ++ ".inf"
  else if (Number.magnitude x).significand = 0 then sign ++ "0.0"
  else
    let s := Number.shortest .toEven x
    let ds := Nat.toDigits 10 s.digits
    let point := ds.length + s.exponent
    if -5 < point ∧ point ≤ 16 then
      sign ++ s.positional ++ (if 0 ≤ s.exponent then ".0" else "")
    else
      let tail := if ds.length = 1 then [] else '.' :: ds.drop 1
      sign ++ String.ofList (ds.take 1 ++ tail) ++ "e" ++ toString (point - 1)

/-- Text in quotes, with escapes for what would not show. -/
def quote (s : String) : String :=
  "\"" ++ String.join (s.toList.map fun c =>
    match c with
    | '"' => "\\\""
    | '\\' => "\\\\"
    | '\n' => "\\n"
    | '\r' => "\\r"
    | '\t' => "\\t"
    | c => String.singleton c) ++ "\""

mutual

/-- A node with the name of its form, for messages. -/
def describe : Node → String
  | .word .null => "Null"
  | .word (.bool b) => if b then "Bool(true)" else "Bool(false)"
  | .word (.int i) => s!"Number({i})"
  | .word (.number x) => s!"Number({numberText x})"
  | .word (.text s) => s!"String({quote s})"
  | .sequence items => "Sequence [" ++ ", ".intercalate (describeItems items) ++ "]"
  | .mapping pairs => "Mapping \x7b" ++ ", ".intercalate (describePairs pairs) ++ "\x7d"

def describeItems : List Node → List String
  | [] => []
  | item :: rest => item.describe :: describeItems rest

def describePairs : List (Node × Node) → List String
  | [] => []
  | (k, v) :: rest => (describeKey k ++ ": " ++ v.describe) :: describePairs rest

/-- A key within a mapping goes without the name of its form, if it is a word. -/
def describeKey : Node → String
  | .word (.bool b) => if b then "true" else "false"
  | .word (.int i) => toString i
  | .word (.number x) => numberText x
  | .word (.text s) => quote s
  | .word .null => "Null"
  | .sequence items => "Sequence [" ++ ", ".intercalate (describeItems items) ++ "]"
  | .mapping pairs => "Mapping \x7b" ++ ", ".intercalate (describePairs pairs) ++ "\x7d"

end

end Node
end Schemata.Yaml
