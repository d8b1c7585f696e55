import Linkage.Files.Glob
import Linkage.Project.Name

/-!
Projects: a directory with the files of a build tool, and the directories below it that hold compiled classes and
libraries.
-/
namespace Linkage

/-- A project and where its classes and libraries are. -/
structure Project where
  root : String
  kind : ProjectKind
  name : String
  classRoots : List String
  libraries : List String
deriving Repr, DecidableEq

namespace Project

/-- The names that tell a project's root, the first found first. -/
def markers : List (String × ProjectKind) :=
  [("pom.xml", .maven), ("build.gradle", .gradle), ("build.gradle.kts", .gradle), ("settings.gradle", .gradle),
    ("settings.gradle.kts", .gradle), ("build.sbt", .sbt), (".git", .git)]

/-- Where build tools put compiled classes. -/
def classPatterns : List String :=
  ["target/classes", "target/scala-*/classes", "build/classes/java/main", "build/classes/kotlin/main",
    "build/classes/scala/main", "out/production/*"]

/-- Where libraries are kept. -/
def libraryPatterns : List String := ["target/dependency", "target/lib", "build/libs", "lib"]

/-- The kind that a directory's markers tell. -/
def kindAt (files : FileTree) (directory : String) : Option ProjectKind :=
  (markers.find? fun marker => files.existsAt (Path.join directory marker.1)).map (·.2)

/-- A directory and those above it, up to the root. -/
def upward (directory : String) : List String := go (Path.parts directory).length directory
where
  go : Nat → String → List String
    | 0, d => [d]
    | n + 1, d => if Path.parent d = d then [d] else d :: go n (Path.parent d)

/-- The nearest directory with a marker, from a directory upward. -/
def rootFrom (files : FileTree) (directory : String) : Option (String × ProjectKind) :=
  (upward directory).findSome? fun d => (kindAt files d).map (d, ·)

/-- The directories below a root that match the patterns. A pattern that the root's own path makes malformed
matches none. -/
def existing (files : FileTree) (root : String) (patterns : List String) : List String :=
  patterns.flatMap fun pattern =>
    match Glob.paths files (Path.join root pattern) with
    | .ok found => (found.mergeSort fun a b => decide (a ≤ b)).filter files.isDirectoryAt
    | .error _ => []

/-- Whether a directory itself has a file whose name ends in one of the wanted ways and in none of the others. -/
def hasFile (files : FileTree) (directory : String) (wanted others : List String) : Except FileError Bool := do
  let entries ← files.list directory
  return entries.any fun (name, entry) =>
    !entry.isDirectory && wanted.any (name.endsWith ·) && !others.any (name.endsWith ·)

/-- Whether a directory has libraries; archives of sources and of documentation are none. -/
def hasLibraries (files : FileTree) (directory : String) : Bool :=
  match hasFile files directory [".jar"] ["-sources.jar", "-javadoc.jar"] with
  | .ok found => found
  | .error _ => false

/-- The name that the build files give, or else that of the root. -/
def nameAt (files : FileTree) (root : String) (kind : ProjectKind) : String :=
  let named := kind.nameFiles.findSome? fun file =>
    (files.read (Path.join root file)).toOption.bind fun data => kind.nameIn (Text.decodeUtf8 data)
  named.getD (Path.base root)

/-- The project that the directory or file at a path belongs to. -/
def detect (place : Workplace) (path : String) : Except FileError Project := do
  let path := Path.absolute place.working path
  let found ← place.files.stat path
  let start := if found.isDirectory then path else Path.parent path
  let (root, kind) := (rootFrom place.files start).getD (start, .unknown)
  return {
    root, kind
    name := nameAt place.files root kind
    classRoots := existing place.files root classPatterns
    libraries := (existing place.files root libraryPatterns).filter (hasLibraries place.files) }

/-- Where the classes of a project are looked for: in the whole project if it has no place for them. -/
def locations (p : Project) : List String :=
  match p.classRoots ++ p.libraries with
  | [] => [p.root]
  | found => found

end Project

end Linkage
