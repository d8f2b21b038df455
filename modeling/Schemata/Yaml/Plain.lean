import Schemata.Number.Decimal
import Schemata.Text.Hex

/-! What plain words of YAML mean.

A plain word is null, a truth value, a whole number in one of four notations, a
decimal number, or else text. A decimal notation with a superfluous zero at its
start is text. A whole number is kept if it has at most 64 bits; one of up to 128
bits is refused, and a longer one counts as a decimal number. -/
namespace Schemata.Yaml

/-- A word that is neither a collection nor quoted. -/
inductive Word
  | null
  | bool (b : Bool)
  | int (i : Int)
  | number (x : Float)
  | text (s : String)
deriving Inhabited

/-- What a word is as a whole number. -/
inductive Whole
  | fits (i : Int)
  | tooWide
  | other
deriving DecidableEq, Repr

/-- A number of this size and sign. -/
def Whole.ofNat (negative : Bool) (n : Nat) : Whole :=
  if negative then
    if n ≤ Nat.pow 2 63 then .fits (-n) else if n ≤ Nat.pow 2 127 then .tooWide else .other
  else if n < Nat.pow 2 64 then .fits n
  else if n < Nat.pow 2 128 then .tooWide
  else .other

/-- The number that digits of this base write; there is at least one. -/
def readBase (base : Nat) (s : List Char) : Option Nat :=
  if s.isEmpty then none
  else
    s.foldlM (fun n c =>
      match Text.hexValue? c with
      | some d => if d < base then some (base * n + d) else none
      | none => none) 0

/-- Digits with a superfluous zero before them. -/
def isPadded (digits : List Char) : Bool :=
  digits.length > 1 && digits.head? = some '0' && digits.all Char.isDigit

/-- A whole number without its sign: decimal, or in base 16, 8 or 2 behind its mark. -/
def readUnsigned (s : List Char) : Option Nat :=
  match s with
  | '0' :: 'x' :: digits => readBase 16 digits
  | '0' :: 'o' :: digits => readBase 8 digits
  | '0' :: 'b' :: digits => readBase 2 digits
  | digits => if isPadded digits then none else readBase 10 digits

def readWhole (s : List Char) : Whole :=
  let (negative, digits) := Number.takeSign s
  match readUnsigned digits with
  | some n => .ofNat negative n
  | none => .other

/-- A finite decimal number, or one of the words for those that are not. -/
def readNumber (s : List Char) : Option Float :=
  let word := String.ofList s
  if word = ".inf" || word = ".Inf" || word = ".INF" ||
      word = "+.inf" || word = "+.Inf" || word = "+.INF" then some Number.infinity
  else if word = "-.inf" || word = "-.Inf" || word = "-.INF" then some (-Number.infinity)
  else if word = ".nan" || word = ".NaN" || word = ".NAN" then some Number.notANumber
  else if isPadded (Number.takeSign s).2 then none
  else
    match Number.readDecimal s with
    | .ok x => if x.isFinite then some x else none
    | .error _ => none

/-- The meaning of a plain word, if it has one. -/
def readWord (s : List Char) : Option Word :=
  let word := String.ofList s
  if word = "" || word = "~" || word = "null" || word = "Null" || word = "NULL" then some .null
  else if word = "true" || word = "True" || word = "TRUE" then some (.bool true)
  else if word = "false" || word = "False" || word = "FALSE" then some (.bool false)
  else
    match readWhole s with
    | .fits i => some (.int i)
    | .tooWide => none
    | .other =>
      match readNumber s with
      | some x => some (.number x)
      | none => some (.text word)

end Schemata.Yaml
