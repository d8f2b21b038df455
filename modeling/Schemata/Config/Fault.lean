import Schemata.Config
import Schemata.Failure

/-! Why a text gives no configuration. -/
namespace Schemata

inductive ConfigFault
  /-- The text is not of its format. -/
  | malformed
  /-- The text holds something that is no configuration. -/
  | refused (failure : Failure)

namespace Config

/-- The source of a configuration that comes from no file. -/
def unnamedSource : String := "<config>"

/-- A configuration is refused as a whole, at the start of its source. -/
def refuse {α : Type} (source reason : String) : Except ConfigFault α :=
  .error (.refused ((Cause.invalidConfig reason).at ⟨source, 1, 1⟩))

end Config
end Schemata
