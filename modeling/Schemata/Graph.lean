import Schemata.Element
import Schemata.Search

/-! The finished graph.

A graph is an arena of elements together with the types they have. What elements
own forms a tree from the root; bases, derived elements and targets of
references cross it, so that the graph as a whole may have circles. -/
namespace Schemata

structure Graph where
  elements : Array (Element ElementId)
  typeInfos : TypeInfoTable
deriving Inhabited

namespace Graph

variable (g : Graph)

def size : Nat := g.elements.size

/-- The element at an id of this graph. -/
def element (id : ElementId) : Element ElementId := g.elements.getD id.index default

def ids : List ElementId := (List.range g.size).map ElementId.mk

/-- The first owned element of this name. -/
def childNamed (parent : ElementId) (name : String) : Option ElementId :=
  (g.element parent).owned.find? fun c => (g.element c).name = some name

/-- Everything that can be reached from an element, each once, depth first. -/
def walk (start : ElementId) : List ElementId :=
  Search.reach (fun id => (g.element id).edges) g.size [start]

end Graph

/-- What a compilation yields. -/
structure Compiled where
  graph : Graph
  root : ElementId
  /-- The children of the root that are for the plugin: not definitions, nor declared elsewhere, nor
  ignored. -/
  included : List ElementId
deriving Inhabited

/-- The first included element of this name. -/
def Compiled.includedNamed (c : Compiled) (name : String) : Option ElementId :=
  c.included.find? fun id => (c.graph.element id).name = some name

end Schemata
