import Schemata.Admission
import Schemata.Draft.Completion
import Schemata.Resolution

/-! From declarations as written to a finished graph, for one plugin. -/
namespace Schemata.ItemTree

variable (t : ItemTree)

/-- Resolves, admits and builds a tree; yields the admitted tree next to what was built of it. -/
def compileTree (plugin : Plugin) (options : Options) : Except Failure (ItemTree × Compiled) := do
  let resolved ← (t.resolve plugin options).mapError Interrupted.failure
  let admitted ← resolved.admitAll plugin options
  let compiled ← admitted.build plugin
  return (admitted, compiled)

/-- Resolves, admits and builds a tree. -/
def compile (plugin : Plugin) (options : Options) : Except Failure Compiled :=
  (t.compileTree plugin options).map Prod.snd

end Schemata.ItemTree
