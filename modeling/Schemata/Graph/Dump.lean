import Schemata.Document
import Schemata.Graph

/-! A finished graph as a document.

Links are written as the places they lead to, so that the document of a graph
with circles is finite. What an element does not have is left out: its name, its
parent, and lists and flags that say nothing. Infinite numbers, and what is no
number, are written as null. -/
namespace Schemata

open Document

mutual

def Value.toDocument : Value → Document
  | .text s => .text s
  | .bool b => .bool b
  | .int i => .int i.toInt
  | .number x => if x.isFinite then .number x else .null
  | .list vs => .array (Value.toDocuments vs)

def Value.toDocuments : List Value → List Document
  | [] => []
  | v :: vs => v.toDocument :: Value.toDocuments vs

end

namespace Graph

def place (index : Nat) : Document := .int index

def elementPlaces (ids : List ElementId) : Document := .array (ids.map fun id => place id.index)
def typePlaces (ids : List TypeInfoId) : Document := .array (ids.map fun id => place id.index)
def values (m : OrderedMap String Value) : Document :=
  .ofMembers (m.entries.map fun e => (e.1, e.2.toDocument))

/-- A member that is there only if there is something to say. -/
def memberIf (present : Bool) (name : String) (value : Document) : List (String × Document) :=
  if present then [(name, value)] else []

/-- What the kind of an element adds. -/
def dataMembers : ElementData ElementId → List (String × Document)
  | .fundamental type => [("fundamental", .text type.keyword)]
  | .compound children definitions bases derived =>
    [("children", elementPlaces children), ("definitions", elementPlaces definitions),
     ("bases", elementPlaces bases), ("derived", elementPlaces derived)]
  | .simple attributes valueName =>
    [("attributes", elementPlaces attributes), ("fundamental_attribute_name", .text valueName)]
  | .variant variations => [("variations", elementPlaces variations)]
  | .reference target => [("reference", place target.index)]
  | .list target => [("reference", place target.index)]
  | .any => []
  | .custom => []
  | .extension arguments => [("arguments", .array (Value.toDocuments arguments))]

def elementMembers (index : Nat) (e : Element ElementId) : List (String × Document) :=
  [("id", place index), ("kind", .text e.kind.name)] ++
    (e.name.map fun name => ("name", Document.text name)).toList ++
    (e.parent.map fun parent => ("parent", place parent.index)).toList ++
    [("type_info", place e.typeInfo.index)] ++
    memberIf e.isDefinition "is_definition" (.bool true) ++
    memberIf (!e.metadata.isEmpty) "metadata" (values e.metadata) ++
    memberIf (!e.attributeNames.isEmpty) "attribute_names" (.array (e.attributeNames.map .text)) ++
    memberIf (!e.extensions.isEmpty) "extensions" (elementPlaces e.extensions) ++
    dataMembers e.data

def shapeMembers : Shape → List (String × Document)
  | .scalar s =>
    [("shape", .text "fundamental"), ("type", .text s.type.keyword),
     ("constraints", values s.constraints)]
  | .record c =>
    [("shape", .text "class"), ("bases", typePlaces c.bases),
     ("fields", .ofMembers (c.fields.entries.map fun e => (e.1, place e.2.index)))]
  | .anyOf alternatives => [("shape", .text "any_of"), ("alternatives", typePlaces alternatives)]
  | .ref target => [("shape", .text "ref"), ("target", place target.index)]
  | .any => [("shape", .text "any")]
  | .custom => [("shape", .text "custom")]
  | .extension => [("shape", .text "extension")]

def typeMembers (index : Nat) (info : TypeInfo) : List (String × Document) :=
  [("id", place index), ("arity", .text info.arity.render)] ++ shapeMembers info.shape

/-- Every element and every type of a graph. -/
def toDocument (g : Graph) : Document :=
  .ofMembers
    [("elements", .array (g.elements.toList.mapIdx fun index e => .ofMembers
      (elementMembers index e))),
     ("type_infos", .array (g.typeInfos.infos.toList.mapIdx fun index info => .ofMembers
      (typeMembers index info)))]

end Graph
end Schemata
