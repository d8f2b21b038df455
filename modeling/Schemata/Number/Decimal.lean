import Schemata.Number.Integer

/-! Decimal numbers as text, read to the nearest double.

A decimal number is an optional sign and then a word for infinity or for no
number, in any case, or digits with at most one point and an optional exponent.
There has to be a digit on one side of the point, and one in the exponent. The
value is rounded once, to the nearest double, a tie to the even one; what is too
large becomes infinite. -/
namespace Schemata.Number

/-- Why a text is no decimal number. -/
inductive DecimalFault
  | empty
  | invalid
deriving DecidableEq, Repr

def DecimalFault.message : DecimalFault → String
  | empty => "cannot parse float from empty string"
  | invalid => "invalid float literal"

def infinity : Float := 1.0 / 0.0
def notANumber : Float := 0.0 / 0.0

/-- The double nearest to `m * 10 ^ e`. Powers far outside the range of doubles are decided by the
number of digits alone, so that none of them is ever formed. -/
def nearest (m : Nat) (e : Int) : Float :=
  let magnitude := (Nat.toDigits 10 m).length + e
  if m = 0 then 0.0
  else if 310 < magnitude then infinity
  else if magnitude < -330 then 0.0
  else Float.ofScientific m (e < 0) e.natAbs

/-- An optional sign: whether it is a minus, and what follows. -/
def takeSign : List Char → Bool × List Char
  | '+' :: rest => (false, rest)
  | '-' :: rest => (true, rest)
  | s => (false, s)

/-- What may stand behind the digits: nothing, or an exponent. -/
def readExponent : List Char → Option Int
  | [] => some 0
  | c :: rest =>
    let (negative, ds) := takeSign rest
    if (c = 'e' || c = 'E') && !ds.isEmpty && ds.all Char.isDigit then
      some (if negative then -(digitsValue ds : Int) else digitsValue ds)
    else none

/-- Digits, a point, digits, an exponent: the number without its sign. -/
def readPositional (s : List Char) : Option Float :=
  let whole := s.takeWhile Char.isDigit
  let (fraction, rest) :=
    match s.dropWhile Char.isDigit with
    | '.' :: rest => (rest.takeWhile Char.isDigit, rest.dropWhile Char.isDigit)
    | rest => ([], rest)
  if whole.isEmpty && fraction.isEmpty then none
  else
    (readExponent rest).map fun e => nearest (digitsValue (whole ++ fraction)) (e - fraction.length)

/-- The words for infinity and for no number, in any case. -/
def readWord (s : List Char) : Option Float :=
  let word := String.ofList (s.map Char.toLower)
  if word = "inf" || word = "infinity" then some infinity
  else if word = "nan" then some notANumber
  else none

def readDecimal (s : List Char) : Except DecimalFault Float :=
  if s.isEmpty then .error .empty
  else
    let (negative, rest) := takeSign s
    match (readWord rest).or (readPositional rest) with
    | some x => .ok (if negative then -x else x)
    | none => .error .invalid

end Schemata.Number
