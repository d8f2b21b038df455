/-! Places in a source text.

Lines and columns count from one, as a front end reports them. What comes from
no source text stands at the builtin place. -/
namespace Schemata

structure Location where
  source : String
  line : Nat
  column : Nat
deriving DecidableEq, Repr

namespace Location

/-- The place of what no source text holds. -/
def builtin : Location := ⟨"<builtin>", 0, 0⟩

instance : Inhabited Location := ⟨builtin⟩

/-- The source, then line and column in brackets. -/
def render (l : Location) : String := s!"{l.source} [{l.line} {l.column}]"

end Location
end Schemata
