import Schemata.Config.Json
import Schemata.Config.Yaml

/-! Configurations from files.

A file whose name ends in the extension `json` is read as JSON, any other as
YAML. A name that is nothing but an extension has none. -/
namespace Schemata.Config

/-- The part of a path behind its last slash. -/
def fileName (path : String) : List Char :=
  (path.toList.reverse.takeWhile (· ≠ '/')).reverse

/-- What follows the last point of a file name that does not start with it. -/
def extension? (name : List Char) : Option (List Char) :=
  let tail := (name.reverse.takeWhile (· ≠ '.')).reverse
  if tail.length + 1 < name.length then some tail else none

/-- The configuration in a file, or the failure to read the file, for which a reason is given. -/
def ofFile (path : String) (content : Except String String) : Except ConfigFault Config :=
  match content with
  | .error reason => .error (.refused ((Cause.invalidConfig reason).at ⟨path, 0, 0⟩))
  | .ok text =>
    if extension? (fileName path) = some "json".toList then ofJson text path
    else ofYaml text path

end Schemata.Config
