import Linkage.Files.Tree

/-!
Locations: texts that name files. A location is an absolute path, a path seen from the working directory or the
address of a file.
-/
namespace Linkage

/-- The files, and the directory that paths are seen from. -/
structure Workplace where
  working : String
  files : FileTree
deriving Inhabited

namespace Location

def scheme : String := "file://"

/-- What stands in front of the path in the address of a file. -/
def origin : String := scheme ++ "localhost"

/-- The path in the address of a file: what follows the host. -/
def pathOfAddress (address : String) : String := String.ofList ((address.toList.drop scheme.length).dropWhile (· != '/'))

/-- The absolute path that a location names. Parts that lead nowhere stay in it. -/
def path (working location : String) : String :=
  let named :=
    if location.startsWith scheme then pathOfAddress location
    else if location.startsWith "/" || location.contains ':' then location
    else working ++ "/" ++ Path.trimSlashes location
  "/" ++ Path.trimSlashes named

/-- The address of the file that a location names. -/
def address (working location : String) : String := origin ++ path working location

end Location

namespace Workplace

def path (place : Workplace) (location : String) : String := Location.path place.working location

/-- The path of the file at a location, by the shortest way. -/
def filePath (place : Workplace) (location : String) : String := Path.clean (place.path location)

/-- The content of the file at a location. The directories on the way are made first. -/
def read (place : Workplace) (location : String) : Except FileError Bytes := do
  let path := place.filePath location
  let files ← place.files.makeParents path
  files.read path

/-- Writes the file at a location. -/
def write (place : Workplace) (location : String) (data : Bytes) : Except FileTree.WriteError Workplace := do
  return { place with files := ← place.files.write (place.path location) data }

end Workplace

end Linkage
