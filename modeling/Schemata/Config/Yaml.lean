import Schemata.Config.Fault
import Schemata.Yaml.Node

/-! Configurations as YAML mappings: sections by name, values by key.

The sections, and the values of each, come in the order of the text. A value is
text, a truth value, a number or a list of values. -/
namespace Schemata.Config

open Yaml

/-- The value that a word is, if it is one. A whole number beyond 64 bits with a sign is a decimal
one. -/
def wordValue : Word → Option Value
  | .null => none
  | .bool b => some (.bool b)
  | .int i =>
    if i < Nat.pow 2 63 then some (.int (Int64.ofInt i))
    else some (.number (UInt64.ofNat i.toNat).toFloat)
  | .number x => some (.number x)
  | .text s => some (.text s)

mutual

/-- The value that a node is, if it is one. -/
def nodeValue : Node → Option Value
  | .word w => wordValue w
  | .sequence items => (nodeValues items).map .list
  | .mapping _ => none

def nodeValues : List Node → Option (List Value)
  | [] => some []
  | n :: ns =>
    match nodeValue n, nodeValues ns with
    | some v, some vs => some (v :: vs)
    | _, _ => none

end

/-- A key is text. -/
def readKey (source : String) : Node → Except ConfigFault String
  | .word (.text s) => .ok s
  | key => refuse source s!"invalid key {key.describe}"

/-- Adds a section. -/
def addYamlSection (source : String) (c : Config) (p : Node × Node) :
    Except ConfigFault Config := do
  let name ← readKey source p.1
  match p.2 with
  | .mapping pairs =>
    pairs.foldlM (fun c e => do
      let key ← readKey source e.1
      match nodeValue e.2 with
      | some v => return c.set name key v
      | none => refuse source s!"unsupported value for '{key}'") c
  | _ => refuse source s!"section '{name}' must be a mapping"

/-- The configuration that a YAML text gives. -/
def ofYaml (text source : String) : Except ConfigFault Config :=
  match Node.ofText text.toList with
  | none => .error .malformed
  | some (.mapping pairs) => pairs.foldlM (addYamlSection source) {}
  | some _ => refuse source "expected a mapping of sections"

end Schemata.Config
