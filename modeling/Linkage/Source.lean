import Linkage.Archive.Zip
import Linkage.Location

/-! Files that hold classes: class files and jars. -/
namespace Linkage

/-- The bytes of a class, the name they are known by and the location of the file that holds them. -/
structure Source where
  name : String
  location : String
  data : Bytes
deriving Repr, DecidableEq

/-- The kinds of files that classes are read from. -/
inductive FileKind where
  | classFile
  | jar
deriving Repr, DecidableEq

namespace FileKind

/-- The kind of a file by its extension, in letters of any case. -/
def ofName? (name : String) : Option FileKind :=
  match (Path.extension name).toLower with
  | ".class" => some .classFile
  | ".jar" => some .jar
  | _ => none

end FileKind

/-- Why a file gives no classes. -/
inductive SourceError where
  | unsupported (extension : String)
  | download (location : String) (error : FileError)
  | openJar (location : String) (fault : Archive.ZipFault)
  | readEntry (entry location : String) (fault : Archive.ZipFault)
deriving Repr, DecidableEq

namespace SourceError

def message : SourceError → String
  | .unsupported extension => "unsupported file type: " ++ extension
  | .download location error => "failed to download " ++ location ++ ": " ++ error.message
  | .openJar location fault => "failed to open jar " ++ location ++ ": " ++ fault.message
  | .readEntry entry location fault => "failed to read " ++ entry ++ " in " ++ location ++ ": " ++ fault.message

end SourceError

namespace Source

/-- Whether an entry of a jar is a class of its own. What stands under `META-INF` is not. -/
def isClassEntry (e : Archive.ZipEntry) : Bool :=
  !e.isDirectory && e.name.endsWith ".class" && !e.name.startsWith "META-INF/"

/-- The classes of a jar in the order of its directory. -/
def ofJar (location : String) (data : Bytes) : Except SourceError (List Source) := do
  let entries ← (Archive.Zip.entries data).mapError (.openJar location)
  (entries.filter isClassEntry).mapM fun e => do
    let content ← (Archive.Zip.read data e).mapError (.readEntry e.name location)
    return ⟨e.name, location, content⟩

/-- The classes that a file of the given kind holds. -/
def ofFile (kind : FileKind) (location : String) (data : Bytes) : Except SourceError (List Source) :=
  match kind with
  | .classFile => .ok [⟨Path.base location, location, data⟩]
  | .jar => ofJar location data

/-- The kind of a file, if classes are read from it. -/
def kindOf (name : String) : Except SourceError FileKind :=
  match FileKind.ofName? name with
  | some kind => .ok kind
  | none => .error (.unsupported (Path.extension name))

/-- The classes that the content of a file at a location holds. -/
def inspect (location : String) (data : Bytes) : Except SourceError (List Source) := do
  ofFile (← kindOf location) location data

/-- The classes of the file at a location. What cannot hold classes is not read. -/
def load (place : Workplace) (location : String) : Except SourceError (List Source) := do
  let kind ← kindOf location
  ofFile kind location (← (place.read location).mapError (.download location))

end Source

end Linkage
