/-! What a declaration stands for once it is classified. -/
namespace Schemata

inductive Kind
  | fundamental
  | compound
  | simple
  | variant
  | reference
  | list
  | any
  | custom
  | extension
deriving DecidableEq, Repr

namespace Kind

def all : List Kind :=
  [fundamental, compound, simple, variant, reference, list, any, custom, extension]

def name : Kind → String
  | fundamental => "fundamental"
  | compound => "compound"
  | simple => "simple"
  | variant => "variant"
  | reference => "reference"
  | list => "list"
  | any => "any"
  | custom => "custom"
  | extension => "extension"

def ofName? (s : String) : Option Kind := all.find? (·.name == s)

end Kind
end Schemata
