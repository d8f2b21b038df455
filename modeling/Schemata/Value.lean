import Schemata.Number.Shortest

/-! Values of metadata.

A front end writes most values as text; conversion to an attribute's type turns
them into the other forms. Two values are the same when they have the same form
and content, where numbers compare as numbers do: both zeros are the same, and
what is no number differs from itself. -/
namespace Schemata

inductive Value
  | text (s : String)
  | bool (b : Bool)
  | int (i : Int64)
  | number (x : Float)
  | list (vs : List Value)
deriving Inhabited

namespace Value

/-! ### Views -/

def asText? : Value → Option String
  | text s => some s
  | _ => none

def asBool? : Value → Option Bool
  | bool b => some b
  | _ => none

def asInt? : Value → Option Int64
  | int i => some i
  | _ => none

/-- A number, or the double nearest to a whole number. -/
def asNumber? : Value → Option Float
  | number x => some x
  | int i => some (Float.ofInt i.toInt)
  | _ => none

def asList? : Value → Option (List Value)
  | list vs => some vs
  | _ => none

/-- The name of a value's form, for messages. -/
def form : Value → String
  | text _ => "string"
  | bool _ => "bool"
  | int _ => "int"
  | number _ => "number"
  | list _ => "list"

/-! ### Writing -/

mutual

/-- Text as it is, numbers in full, lists in brackets. -/
def render : Value → String
  | text s => s
  | bool b => if b then "true" else "false"
  | int i => toString i.toInt
  | number x => Number.renderFloat x
  | list vs => "[" ++ ", ".intercalate (renderAll vs) ++ "]"

def renderAll : List Value → List String
  | [] => []
  | v :: vs => v.render :: renderAll vs

end

/-! ### Sameness -/

mutual

def same : Value → Value → Bool
  | text s, text t => s == t
  | bool a, bool b => a == b
  | int i, int j => i == j
  | number x, number y => x == y
  | list vs, list ws => sameAll vs ws
  | _, _ => false

def sameAll : List Value → List Value → Bool
  | [], [] => true
  | v :: vs, w :: ws => v.same w && sameAll vs ws
  | _, _ => false

end

instance : BEq Value := ⟨same⟩

end Value
end Schemata
