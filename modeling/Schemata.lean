import Schemata.Admission
import Schemata.Admission.Alternatives
import Schemata.Admission.Entries
import Schemata.Admission.Names
import Schemata.Admission.Structure
import Schemata.Alias
import Schemata.Arity
import Schemata.Attribute
import Schemata.Attribute.Catalog
import Schemata.Attribute.Check
import Schemata.Attribute.Type
import Schemata.Chain
import Schemata.Classification
import Schemata.Compilation
import Schemata.Config
import Schemata.Config.Fault
import Schemata.Config.File
import Schemata.Config.Json
import Schemata.Config.Yaml
import Schemata.Document
import Schemata.Draft
import Schemata.Draft.Assembly
import Schemata.Draft.Completion
import Schemata.Draft.Entries
import Schemata.Draft.Values
import Schemata.Element
import Schemata.Failure
import Schemata.Fundamental
import Schemata.Graph
import Schemata.Graph.Dump
import Schemata.Inheritance
import Schemata.Item
import Schemata.ItemTree
import Schemata.Json
import Schemata.Json.Number
import Schemata.Kind
import Schemata.Literal
import Schemata.Location
import Schemata.Metadata
import Schemata.Number.Decimal
import Schemata.Number.Integer
import Schemata.Number.Shortest
import Schemata.Occurrence
import Schemata.OrderedMap
import Schemata.Plugin
import Schemata.Proofs.Agreement
import Schemata.Proofs.Alternatives
import Schemata.Proofs.ArityFlag
import Schemata.Proofs.Attributes
import Schemata.Proofs.Bases
import Schemata.Proofs.Bounds
import Schemata.Proofs.Circularity
import Schemata.Proofs.Closure
import Schemata.Proofs.Consistency
import Schemata.Proofs.Conversion
import Schemata.Proofs.Coverage
import Schemata.Proofs.Defaults
import Schemata.Proofs.DepthFirst
import Schemata.Proofs.Documents
import Schemata.Proofs.Doubles
import Schemata.Proofs.Draft.Access
import Schemata.Proofs.Draft.Advance
import Schemata.Proofs.Draft.Assembly
import Schemata.Proofs.Draft.Build
import Schemata.Proofs.Draft.Changes
import Schemata.Proofs.Draft.Children
import Schemata.Proofs.Draft.Completion
import Schemata.Proofs.Draft.Elements
import Schemata.Proofs.Draft.Finish
import Schemata.Proofs.Draft.Flattening
import Schemata.Proofs.Draft.Invariant
import Schemata.Proofs.Draft.Kept
import Schemata.Proofs.Draft.Lineage
import Schemata.Proofs.Draft.Narrowing
import Schemata.Proofs.Draft.Objects
import Schemata.Proofs.Draft.Plan
import Schemata.Proofs.Draft.Preservation
import Schemata.Proofs.Draft.Reciprocity
import Schemata.Proofs.Draft.Requests
import Schemata.Proofs.Draft.Scalars
import Schemata.Proofs.Draft.Settling
import Schemata.Proofs.Draft.Stability
import Schemata.Proofs.Draft.Step
import Schemata.Proofs.Draft.Wanted
import Schemata.Proofs.Draft.Wiring
import Schemata.Proofs.Draft.Wrapping
import Schemata.Proofs.Dump
import Schemata.Proofs.Fields
import Schemata.Proofs.Flattening
import Schemata.Proofs.Fold
import Schemata.Proofs.Formats
import Schemata.Proofs.Indentation
import Schemata.Proofs.Indirection
import Schemata.Proofs.Inheritance
import Schemata.Proofs.Kinds
import Schemata.Proofs.Leniency
import Schemata.Proofs.Lookahead
import Schemata.Proofs.Lookups
import Schemata.Proofs.Namesakes
import Schemata.Proofs.Nesting
import Schemata.Proofs.Numerals
import Schemata.Proofs.Order
import Schemata.Proofs.Order.Chains
import Schemata.Proofs.Order.Entries
import Schemata.Proofs.Order.Kinds
import Schemata.Proofs.Order.Names
import Schemata.Proofs.Order.Numbering
import Schemata.Proofs.OrderedMap
import Schemata.Proofs.Outcome
import Schemata.Proofs.Permissions
import Schemata.Proofs.Pieces
import Schemata.Proofs.Precedence
import Schemata.Proofs.Readmission
import Schemata.Proofs.References
import Schemata.Proofs.Refs
import Schemata.Proofs.Requirements
import Schemata.Proofs.Reresolution
import Schemata.Proofs.Rounding
import Schemata.Proofs.Scopes
import Schemata.Proofs.Search
import Schemata.Proofs.Shapes
import Schemata.Proofs.SimpleFields
import Schemata.Proofs.Traversals
import Schemata.Proofs.Tree.Admitting
import Schemata.Proofs.Tree.Arities
import Schemata.Proofs.Tree.Backlinks
import Schemata.Proofs.Tree.Binding
import Schemata.Proofs.Tree.Chains
import Schemata.Proofs.Tree.Classifying
import Schemata.Proofs.Tree.Constraints
import Schemata.Proofs.Tree.Declaring
import Schemata.Proofs.Tree.Describing
import Schemata.Proofs.Tree.Entries
import Schemata.Proofs.Tree.Faults
import Schemata.Proofs.Tree.Founding
import Schemata.Proofs.Tree.Inheriting
import Schemata.Proofs.Tree.Invariants
import Schemata.Proofs.Tree.Leading
import Schemata.Proofs.Tree.Marking
import Schemata.Proofs.Tree.Meanings
import Schemata.Proofs.Tree.Naming
import Schemata.Proofs.Tree.Occurrences
import Schemata.Proofs.Tree.Passage
import Schemata.Proofs.Tree.Passes
import Schemata.Proofs.Tree.Reachable
import Schemata.Proofs.Tree.Rooted
import Schemata.Proofs.Tree.Scoping
import Schemata.Proofs.Tree.Skeleton
import Schemata.Proofs.Tree.Sweeps
import Schemata.Proofs.Tree.Typing
import Schemata.Proofs.Tree.Verdicts
import Schemata.Proofs.Tree.WellFormed
import Schemata.Proofs.Types
import Schemata.Proofs.Unfolding
import Schemata.Proofs.Values
import Schemata.Proofs.Walks
import Schemata.Resolution
import Schemata.Scope
import Schemata.Search
import Schemata.Text.Blank
import Schemata.Text.Hex
import Schemata.Text.Letter
import Schemata.Text.Multiline
import Schemata.Text.Split
import Schemata.TypeInfo
import Schemata.TypeInfo.Fields
import Schemata.TypeInfo.Nesting
import Schemata.Value
import Schemata.Yaml.Cursor
import Schemata.Yaml.Node
import Schemata.Yaml.Plain
import Schemata.Yaml.Token
