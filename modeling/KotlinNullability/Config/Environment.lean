import KotlinNullability.Config.Baseline
import KotlinNullability.Json
import KotlinNullability.Path

/-!
# Settings and the environment

Each setting has a default, and the environment variable that is named after it overrides the
default. The type of the default decides how the variable is read.
-/

namespace KotlinNullability

/-- The variables of an environment. -/
abbrev Environment := List (Text × Text)

namespace Environment

/-- The value of a variable. -/
def get? (env : Environment) (name : Text) : Option Text := Association.find? name env

/-- What comes before the name of a setting in the name of its variable. -/
def settingLead : Text := "KMETA_"

/-- The words that switch a setting on. -/
def switchWords : List Text := ["true", "1", "yes", "on"]

/-- The value of a setting, given its default and the value of its variable. A number that cannot be
read leaves the default in force. -/
def override (value : Text) : Json → Json
  | .bool _ => .bool (switchWords.contains value.toAsciiLower)
  | .whole n =>
    match Numeral.read value with
    | .ok m => .whole m
    | .error _ => .whole n
  | _ => .text value

/-- The settings with their defaults. -/
def defaultSettings : List (Text × Json) :=
  [("BASELINE_VERSION", .text "1.9.0"), ("LOG_DIR", .text "logs")]

/-- The settings, as the environment overrides their defaults. -/
def settings (env : Environment) (defaults : List (Text × Json)) : List (Text × Json) :=
  defaults.map fun (name, value) =>
    (name, match env.get? (settingLead ++ name) with
      | some t => override t value
      | none => value)

/-- The text of a setting. -/
def textSetting (env : Environment) (name : Text) : Text :=
  ((Association.find? name (env.settings defaultSettings)).bind Json.text?).getD []

/-- The directory for log files. -/
def logDirectory (env : Environment) : Path := Path.read (env.textSetting "LOG_DIR")

/-- The configured baseline. -/
def baseline (env : Environment) : Except Baseline.ReadError Baseline :=
  Baseline.read (env.textSetting "BASELINE_VERSION")

end Environment

end KotlinNullability
