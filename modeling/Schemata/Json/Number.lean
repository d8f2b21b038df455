import Schemata.Number.Decimal

/-! Numbers in JSON text.

A whole number of 64 bits with a sign is read as it is. Any other number becomes
a double in steps that each round: its digits are gathered as long as they make
a number of 64 bits; further digits before the point only count as places, and
further digits behind it are passed over; what was gathered is then multiplied or
divided by a power of ten. A number too large for a double is refused. -/
namespace Schemata.Json

/-- Gathered digits as `digits * 10 ^ exponent`. -/
structure Gathered where
  digits : Nat
  exponent : Int

/-- Whether one more digit still makes a number of 64 bits. -/
def fits (n : Nat) (c : Char) : Bool := 10 * n + Number.digitValue c < Nat.pow 2 64

/-- The digits before the point, behind those that made `n`. -/
def gatherWhole (n : Nat) : List Char → Gathered × List Char
  | c :: rest =>
    if c.isDigit then
      if fits n c then gatherWhole (10 * n + Number.digitValue c) rest
      else (⟨n, (c :: rest.takeWhile Char.isDigit).length⟩, rest.dropWhile Char.isDigit)
    else (⟨n, 0⟩, c :: rest)
  | [] => (⟨n, 0⟩, [])

/-- The digits behind the point, behind what was gathered before it. -/
def gatherFraction (g : Gathered) : List Char → Gathered × List Char
  | c :: rest =>
    if c.isDigit then
      if fits g.digits c then
        gatherFraction ⟨10 * g.digits + Number.digitValue c, g.exponent - 1⟩ rest
      else (g, rest.dropWhile Char.isDigit)
    else (g, c :: rest)
  | [] => (g, [])

/-- The power of ten as a double. -/
def power (n : Nat) : Float := Number.nearest 1 n

/-- `x * 10 ^ e`, by powers of ten that are doubles; `none` if that is too large. -/
def scale : Nat → Float → Int → Option Float
  | 0, _, _ => some 0.0
  | left + 1, x, e =>
    if e.natAbs ≤ 308 then
      if 0 ≤ e then
        let y := x * power e.natAbs
        if y.isInf then none else some y
      else some (x / power e.natAbs)
    else if x == 0.0 then some x
    else if 0 ≤ e then none
    else scale left (x / power 308) (e + 308)

/-- Dividing three times by the largest power leaves nothing of a number of 64 bits. -/
def Gathered.toFloat? (g : Gathered) : Option Float :=
  scale 4 (UInt64.ofNat g.digits).toFloat g.exponent

/-- A number that was read, and what follows it. -/
inductive Numeral
  | int (i : Int)
  | number (x : Float)
deriving Inhabited

/-- A number written without a point and without an exponent. -/
def wholeNumeral (negative : Bool) (n : Nat) : Numeral :=
  if negative then
    if 0 < n ∧ n ≤ Nat.pow 2 63 then .int (-n) else .number (-(UInt64.ofNat n).toFloat)
  else if n < Nat.pow 2 63 then .int n
  else .number (UInt64.ofNat n).toFloat

/-- An exponent, with its sign: at least one digit. -/
def takeExponent (s : List Char) : Option (Int × List Char) :=
  let (negative, rest) := Number.takeSign s
  let ds := rest.takeWhile Char.isDigit
  if ds.isEmpty then none
  else
    let n : Int := Number.digitsValue ds
    some (if negative then -n else n, rest.dropWhile Char.isDigit)

/-- What was gathered, scaled by the exponent that follows it, if one does. -/
def finishNumber (negative : Bool) (g : Gathered) (s : List Char) :
    Option (Numeral × List Char) := do
  let (e, rest) ← match s with
    | 'e' :: rest => takeExponent rest
    | 'E' :: rest => takeExponent rest
    | _ => some (0, s)
  let x ← Gathered.toFloat? { g with exponent := g.exponent + e }
  return (.number (if negative then -x else x), rest)

/-- A number whose first digit is there, and has no further digit behind it if it is zero. -/
def readUnsigned (negative : Bool) (s : List Char) : Option (Numeral × List Char) :=
  let (g, rest) := gatherWhole 0 s
  match rest with
  | '.' :: rest =>
    if (rest.head?).any Char.isDigit then
      let (g, rest) := gatherFraction g rest
      finishNumber negative g rest
    else none
  | 'e' :: _ => finishNumber negative g rest
  | 'E' :: _ => finishNumber negative g rest
  | _ =>
    if g.exponent = 0 then some (wholeNumeral negative g.digits, rest)
    else finishNumber negative g rest

/-- The number at the start of a text, and what follows it. -/
def readNumber (s : List Char) : Option (Numeral × List Char) :=
  let (negative, rest) :=
    match s with
    | '-' :: rest => (true, rest)
    | _ => (false, s)
  match rest with
  | '0' :: next :: _ => if next.isDigit then none else readUnsigned negative rest
  | c :: _ => if c.isDigit then readUnsigned negative rest else none
  | [] => none

end Schemata.Json
