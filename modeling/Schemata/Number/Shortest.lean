/-! The shortest text of a double.

A double stands for all real numbers that round to it, an interval around its
own value whose ends belong to it when its significand is even. Of the decimal
grids (the multiples of `1`, of `10`, of `0.1` and so on) the coarsest one with
a point in that interval gives the fewest digits; of two such points the nearer
one is taken, and a `Tie` decides when both are equally near. `renderFloat`
writes these digits without an exponent, however large or small the number is,
and takes the upper point of a tie. -/
namespace Schemata.Number

/-- `significand * 2 ^ exponent`. -/
structure Dyadic where
  significand : Nat
  exponent : Int
deriving DecidableEq, Repr

/-- `digits * 10 ^ exponent`. -/
structure Scaled where
  digits : Nat
  exponent : Int
deriving DecidableEq, Repr

/-- Which of two equally near points is taken. -/
inductive Tie
  | up
  | toEven
deriving DecidableEq, Repr

/-- The size of a finite double. -/
def magnitude (x : Float) : Dyadic :=
  let bits := x.toBits.toNat
  let biased : Nat := bits / Nat.pow 2 52 % Nat.pow 2 11
  let fraction := bits % Nat.pow 2 52
  if biased = 0 then ⟨fraction, -1074⟩ else ⟨fraction + Nat.pow 2 52, (biased : Int) - 1075⟩

/-- `a * 2 ^ p * 10 ^ q` as a fraction. -/
def fraction (a : Nat) (p q : Int) : Nat × Nat :=
  (a * Nat.pow 2 p.toNat * Nat.pow 10 q.toNat, Nat.pow 2 (-p).toNat * Nat.pow 10 (-q).toNat)

/-- The reals that round to a double, in quarters of its last place: the lower end, the value, the
upper end, and whether the ends belong to it. Below a power of two the doubles lie twice as
dense. -/
structure Rounding where
  lower : Nat
  value : Nat
  upper : Nat
  exponent : Int
  closed : Bool

def Dyadic.rounding (d : Dyadic) : Rounding :=
  let lowest := d.significand = Nat.pow 2 52 && d.exponent != -1074
  ⟨4 * d.significand - (if lowest then 1 else 2), 4 * d.significand, 4 * d.significand + 2,
    d.exponent - 2, d.significand % 2 = 0⟩

namespace Rounding

variable (r : Rounding)

/-- Whether `n * 10 ^ k` rounds to the double. -/
def admits (n : Nat) (k : Int) : Bool :=
  let (low, den) := fraction r.lower r.exponent (-k)
  let (high, _) := fraction r.upper r.exponent (-k)
  if r.closed then low ≤ n * den && n * den ≤ high else low < n * den && n * den < high

/-- Whether of the points below and above `num / den` the upper one is taken. -/
def prefersUpper (tie : Tie) (num den : Nat) : Bool :=
  den < 2 * (num % den) || (den = 2 * (num % den) && (tie = .up || num / den % 2 = 1))

/-- The point of the grid of `10 ^ k` to write, if one rounds to the double. -/
def pick (tie : Tie) (k : Int) : Option Nat :=
  let (num, den) := fraction r.value r.exponent (-k)
  let below := num / den
  if r.admits below k then
    if r.admits (below + 1) k && prefersUpper tie num den then some (below + 1) else some below
  else if r.admits (below + 1) k then some (below + 1)
  else none

/-- The first grid with a point, from that of `10 ^ k` on to finer ones. -/
def search (tie : Tie) : Nat → Int → Option Scaled
  | 0, _ => none
  | left + 1, k =>
    match r.pick tie k with
    | some n => some ⟨n, k⟩
    | none => search tie left (k - 1)

end Rounding

/-- The fewest digits that round to a positive finite double. The first grid tried is too coarse to
have a point; twenty places further down there is one. -/
def shortest (tie : Tie) (x : Float) : Scaled :=
  let d := magnitude x
  let bits : Int := Nat.log2 d.significand + 1 + d.exponent
  let start := bits * 30103 / 100000 + 1
  (d.rounding.search tie 24 start).getD ⟨0, 0⟩

/-- Digits with the point where the exponent says, and no exponent. -/
def Scaled.positional (s : Scaled) : String :=
  let ds := Nat.toDigits 10 s.digits
  if 0 ≤ s.exponent then String.ofList (ds ++ List.replicate s.exponent.toNat '0')
  else
    let places := (-s.exponent).toNat
    let padded := List.replicate (places + 1 - ds.length) '0' ++ ds
    let whole := padded.length - places
    String.ofList (padded.take whole ++ '.' :: padded.drop whole)

def isNegative (x : Float) : Bool := Nat.pow 2 63 ≤ x.toBits.toNat

/-- Sign, then the shortest digits; words for infinity and for no number. -/
def renderFloat (x : Float) : String :=
  if x.isNaN then "NaN"
  else
    (if isNegative x then "-" else "") ++
      (if x.isInf then "inf"
      else if (magnitude x).significand = 0 then "0"
      else (shortest .up x).positional)

end Schemata.Number
