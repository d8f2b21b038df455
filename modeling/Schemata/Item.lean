import Schemata.Arity
import Schemata.Attribute.Catalog

/-! Declarations.

A front end builds an `Item` for every declaration it reads, with the names it
refers to as they were written. Resolution fills in the rest: what the names
stand for, what kind of thing is declared, how often it occurs and which
attributes it may carry. Items live in an `ItemTree` and know each other by
`ItemId`. -/
namespace Schemata

/-- The place of an item in its tree. -/
structure ItemId where
  index : Nat
deriving DecidableEq, Repr, Inhabited

def ItemId.render (id : ItemId) : String := s!"#{id.index}"

/-- How something was declared. -/
inductive Form
  /-- A name with bases and a body. -/
  | object
  /-- A name with what it refers to. -/
  | declaration
  /-- A name with arguments, for a plugin to make sense of. -/
  | extension
deriving DecidableEq, Repr, Inhabited

/-- What an item is to its parent. -/
inductive Role
  | standard
  /-- A scalar attribute of an object. -/
  | scalar
  /-- A type for reuse, no part of its parent. -/
  | definition
deriving DecidableEq, Repr, Inhabited

/-! ### References -/

/-- One alternative of a variant, as written. -/
structure Alternative where
  name : String
  metadata : Metadata
  location : Location

/-- A reference as written. -/
inductive RawReference
  /-- A name, dotted or not, or a reserved word. -/
  | name (name : String) (location : Location)
  /-- One of several alternatives. -/
  | variant (alternatives : List Alternative)

/-- What a name stands for. -/
inductive Target
  | item (id : ItemId)
  | builtin (type : Builtin)
deriving DecidableEq, Repr, Inhabited

def Target.item? : Target → Option ItemId
  | item id => some id
  | builtin _ => none

/-- What a declaration said about its target when it was classified as a reference. -/
structure Refinement where
  hadExplicitArity : Bool
  explicitKeys : List String
deriving DecidableEq, Repr

/-! ### Items -/

structure Item where
  name : Option String
  /-- Set when the item gets its place in a tree. -/
  id : ItemId := ⟨0⟩
  parent : Option ItemId := none
  form : Form
  role : Role := .standard
  rawReferences : List RawReference := []
  references : List Target := []
  alternatives : List ItemId := []
  /-- The items whose references stand for this one, once for each reference. -/
  referencedBy : List ItemId := []
  metadata : Metadata := ∅
  arity : Option Arity := none
  hasExplicitArity : Bool := false
  children : List ItemId := []
  kind : Option Kind := none
  refinement : Option Refinement := none
  /-- Whether a reference changes something about its target. -/
  isAugmenting : Bool := false
  schema : Schema := ∅
  arguments : List Value := []
  isIgnored : Bool := false
  /-- Declared through an include. -/
  isExternal : Bool := false
  /-- Split off from a simple object to hold its fundamental type. -/
  isSynthetic : Bool := false
  location : Location := .builtin

namespace Item

instance : Inhabited Item := ⟨{ name := none, form := .object }⟩

/-! ### Declaring -/

def object (name : Option String) : Item := { name, form := .object }

def declaration (name : Option String) (target : String) : Item :=
  { name, form := .declaration, rawReferences := [.name target .builtin] }

/-- A declaration without a name. -/
def anonymous (target : String) : Item := declaration none target

def variant (name : Option String) (alternatives : List Alternative) : Item :=
  { name, form := .declaration, rawReferences := [.variant alternatives] }

def extension (name : String) (arguments : List Value) : Item :=
  { name := some name, form := .extension, arguments }

variable (item : Item)

/-- With one more name referred to. -/
def withBase (name : String) : Item :=
  { item with rawReferences := item.rawReferences ++ [.name name item.location] }

def withArity (arity : Arity) : Item :=
  { item with arity := some arity, hasExplicitArity := true }

/-- With an entry written on the item. -/
def withMetadata (key : String) (value : Value) : Item :=
  { item with metadata := item.metadata.insert key ⟨value, .explicit, item.location⟩ }

def withRole (role : Role) : Item := { item with role }

def external : Item := { item with isExternal := true }

def RawReference.moveTo (location : Location) : RawReference → RawReference
  | .name name _ => .name name location
  | .variant alternatives => .variant alternatives

/-- At a place, together with the names and entries that the item has so far. Alternatives keep
theirs. -/
def placedAt (location : Location) : Item :=
  { item with
    rawReferences := item.rawReferences.map (RawReference.moveTo location)
    metadata := item.metadata.mapValues fun _ entry => { entry with location }
    location }

/-! ### Questions -/

/-- The name given in the metadata, or else the declared one. -/
def effectiveName : Option String :=
  ((Metadata.value? item.metadata Key.name).bind Value.asText?).or item.name

/-- The single reference, if there is exactly one. -/
def target? : Option Target :=
  match item.references with
  | [target] => some target
  | _ => none

def isExtension : Bool := item.form = .extension

/-- The items among the references, in order. -/
def itemReferences : List ItemId := item.references.filterMap Target.item?

end Item
end Schemata
