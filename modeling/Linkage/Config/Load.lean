import Linkage.Config.Decode
import Linkage.Location

/-! Settings from a file. -/
namespace Linkage

/-- Why settings cannot be read from a location. -/
inductive LoadError where
  | unreadable (location : String) (error : FileError)
  | invalid (location : String) (error : Config.DecodeError)

namespace LoadError

def message : LoadError → String
  | .unreadable location error => "failed to load config " ++ location ++ ": " ++ error.message
  | .invalid location error => "invalid config " ++ location ++ ": " ++ error.message

end LoadError

/-- The settings in the file at a location. -/
def Config.load (place : Workplace) (location : String) : Except LoadError Config := do
  let data ← (place.read location).mapError (.unreadable location)
  (Config.parse data).mapError (.invalid location)

end Linkage
