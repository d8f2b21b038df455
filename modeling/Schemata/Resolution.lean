import Schemata.Alias
import Schemata.Classification
import Schemata.Inheritance
import Schemata.Occurrence

/-! From a tree of declarations as written to one that is fully understood.

Names are bound, items classified, arities settled, attributes and their values
worked out, and references told from aliases, in this order. Each step reads what
the ones before it have written; the first failure ends the resolution. -/
namespace Schemata

/-- Resolves a tree for a plugin. -/
def ItemTree.resolve (t : ItemTree) (plugin : Plugin) (options : Options) :
    Except Interrupted ItemTree := do
  let t ← t.bindNames
  let t ← t.classify
  let t ← t.settleArities
  let t ← t.describe plugin options.config
  t.markAliases

end Schemata
