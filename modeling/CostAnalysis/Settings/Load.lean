import CostAnalysis.Settings.Toml.Reader
import CostAnalysis.Settings.Yaml.Reader

/-!
# Settings in files

The extension of a file's name decides how it is read.
-/

namespace CostAnalysis

/-- The formats of settings. -/
inductive SettingsFormat where
  | toml
  | yaml
deriving DecidableEq

namespace SettingsFormat

/-- The name of a format. -/
def name : SettingsFormat → String
  | .toml => "TOML"
  | .yaml => "YAML"

/-- What follows the last dot of a file's name; a dot at the front of the name
does not count. -/
def extension? (path : String) : Option (List Char) :=
  let fileName := (Text.splitWhere (· == '/') path.toList).getLastD []
  match (Text.splitWhere (· == '.') fileName).reverse with
  | ext :: stem :: more => if stem.isEmpty && more.isEmpty then none else some ext
  | _ => none

/-- The format of a file: YAML by its extensions, and else TOML. -/
def ofPath (path : String) : SettingsFormat :=
  match extension? path with
  | some ext => if ext == "yaml".toList || ext == "yml".toList then .yaml else .toml
  | none => .toml

/-- Reads a text in a format. -/
def read? (format : SettingsFormat) (text : String) : Option Settings :=
  let document? := match format with
    | .toml => Toml.read? text
    | .yaml => Yaml.read? text
  document?.bind Settings.ofDocument?

end SettingsFormat

end CostAnalysis
