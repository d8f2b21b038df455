import Schemata.OrderedMap
import Schemata.Kind
import Schemata.Location
import Schemata.TypeInfo

/-! Elements: what a declaration has become.

An element has a name, a type and typed metadata, and whatever its kind adds. It
owns other elements, and it points across the graph at its bases and at what it
refers to. While a graph is being built such a link may be missing, so elements
come with a type of links: an id in a finished graph, an optional id before. -/
namespace Schemata

structure ElementId where
  index : Nat
deriving DecidableEq, Repr, Inhabited

def ElementId.render (id : ElementId) : String := s!"e{id.index}"

/-- What the kind of an element adds. -/
inductive ElementData (link : Type)
  | fundamental (type : Fundamental)
  /-- `derived` are the elements that have this one among their bases. -/
  | compound (children definitions : List ElementId) (bases : List link) (derived : List ElementId)
  /-- `valueName` is the name of the field that holds the scalar. -/
  | simple (attributes : List ElementId) (valueName : String)
  | variant (variations : List link)
  | reference (target : link)
  | list (target : link)
  | any
  | custom
  | extension (arguments : List Value)
deriving Inhabited

structure Element (link : Type) where
  name : Option String
  parent : Option ElementId
  typeInfo : TypeInfoId
  metadata : OrderedMap String Value := ∅
  attributeNames : List String := []
  extensions : List ElementId := []
  /-- Defines a type for reuse and is no field of its parent. -/
  isDefinition : Bool
  location : Location
  data : ElementData link := .any
deriving Inhabited

namespace ElementData

variable {link : Type}

def kind : ElementData link → Kind
  | fundamental _ => .fundamental
  | compound .. => .compound
  | simple .. => .simple
  | variant _ => .variant
  | reference _ => .reference
  | list _ => .list
  | any => .any
  | custom => .custom
  | extension _ => .extension

/-- What is owned, extensions apart, as far as `find` knows where links lead. -/
def owned (find : link → Option ElementId) : ElementData link → List ElementId
  | compound children definitions _ _ => children ++ definitions
  | simple attributes _ => attributes
  | variant variations => variations.filterMap find
  | _ => []

/-- What is pointed at across the graph. -/
def crossing (find : link → Option ElementId) : ElementData link → List ElementId
  | compound _ _ bases derived => bases.filterMap find ++ derived
  | reference target => (find target).toList
  | list target => (find target).toList
  | _ => []

/-- With every link replaced, if every link can be. -/
def traverseLinks {found : Type} (find : link → Option found) :
    ElementData link → Option (ElementData found)
  | fundamental type => some (.fundamental type)
  | compound children definitions bases derived =>
    (bases.mapM find).map fun bases => .compound children definitions bases derived
  | simple attributes valueName => some (.simple attributes valueName)
  | variant variations => (variations.mapM find).map .variant
  | reference target => (find target).map .reference
  | list target => (find target).map .list
  | any => some .any
  | custom => some .custom
  | extension arguments => some (.extension arguments)

end ElementData

namespace Element

variable {link : Type}

def kind (e : Element link) : Kind := e.data.kind

/-- Everything an element owns, its extensions last. -/
def ownedBy (find : link → Option ElementId) (e : Element link) : List ElementId :=
  e.data.owned find ++ e.extensions

/-- Everything an element points at, except its parent. -/
def edgesBy (find : link → Option ElementId) (e : Element link) : List ElementId :=
  e.ownedBy find ++ e.data.crossing find

/-- Everything an element owns. -/
def owned (e : Element ElementId) : List ElementId := e.ownedBy some

/-- Everything an element points at, except its parent. -/
def edges (e : Element ElementId) : List ElementId := e.edgesBy some

end Element
end Schemata
