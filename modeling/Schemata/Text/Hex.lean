/-! Hexadecimal digits, as in escape sequences. -/
namespace Schemata.Text

/-- The value of a hexadecimal digit in either case. -/
def hexValue? (c : Char) : Option Nat :=
  if c.isDigit then some (c.toNat - '0'.toNat)
  else if 'a' ≤ c ∧ c ≤ 'f' then some (c.toNat - 'a'.toNat + 10)
  else if 'A' ≤ c ∧ c ≤ 'F' then some (c.toNat - 'A'.toNat + 10)
  else none

/-- The number written by so many hexadecimal digits, and what follows them. -/
def takeHex : Nat → Nat → List Char → Option (Nat × List Char)
  | 0, n, s => some (n, s)
  | _ + 1, _, [] => none
  | left + 1, n, c :: rest =>
    match hexValue? c with
    | some d => takeHex left (16 * n + d) rest
    | none => none

end Schemata.Text
