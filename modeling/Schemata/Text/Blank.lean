/-! White space.

The characters with the Unicode property White_Space, and texts without the
white space at their ends. A text is handled as the list of its characters. -/
namespace Schemata.Text

/-- The Unicode property White_Space. -/
def isBlank (c : Char) : Bool :=
  let n := c.toNat
  (9 ≤ n && n ≤ 13) || n = 0x20 || n = 0x85 || n = 0xA0 || n = 0x1680 ||
    (0x2000 ≤ n && n ≤ 0x200A) || n = 0x2028 || n = 0x2029 || n = 0x202F || n = 0x205F ||
    n = 0x3000

/-- Without the white space at the start. -/
def trimStart (s : List Char) : List Char := s.dropWhile isBlank

/-- Without the white space at the end. -/
def trimEnd (s : List Char) : List Char := (s.reverse.dropWhile isBlank).reverse

/-- Without the white space at both ends. -/
def trim (s : List Char) : List Char := trimEnd (trimStart s)

/-- Nothing but white space. -/
def isBlankText (s : List Char) : Bool := s.all isBlank

end Schemata.Text
