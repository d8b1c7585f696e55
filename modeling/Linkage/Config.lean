import Linkage.Files.Path

/-! The settings of an analysis. -/
namespace Linkage

/-- How classes are found and analysed. -/
structure Config where
  /-- The number of files that are analysed at once. -/
  concurrency : Int := 0
  /-- What the names of the classes to analyse start with; all classes if there is none. -/
  includePrefixes : List String := []
  excludePrefixes : List String := []
  /-- The names of directories that are not searched. -/
  skipDirs : List String := []
  /-- How many references a dependency may be away if nothing else is asked for. -/
  depth : Int := 0
  /-- Whether a malformed class ends the analysis; otherwise it is left out. -/
  strict : Bool := false
deriving Repr, DecidableEq, Inhabited

namespace Config

/-- The settings where nothing is configured. -/
def standard : Config :=
  { concurrency := 4, skipDirs := [".git", ".idea", ".gradle", "node_modules"], depth := 1 }

/-- Whether a class is to be analysed. -/
def accepts (c : Config) (name : String) : Bool :=
  (c.includePrefixes.isEmpty || c.includePrefixes.any (name.startsWith ·)) &&
    !c.excludePrefixes.any (name.startsWith ·)

/-- Whether a part of a path is the name of a directory that is not searched. -/
def skips (c : Config) (path : String) : Bool := (Path.parts path).any c.skipDirs.contains

end Config

end Linkage
