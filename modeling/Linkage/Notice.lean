import Linkage.Extract
import Linkage.Text.Quoted

/-! What an analysis reports on its way, and the lines that such notices are written as. -/
namespace Linkage

/-- How much a notice matters. -/
inductive Level where
  | debug
  | info
  | warn
deriving Repr, DecidableEq

def Level.text : Level → String
  | .debug => "DEBUG"
  | .info => "INFO"
  | .warn => "WARN"

/-- Something worth a line while classes are analysed. -/
inductive Notice where
  | detected (name kind : String) (classRoots libraries : List String)
  | analyzed (name : String) (edges : Nat)
  /-- A malformed class was left out. -/
  | skipped (name location : String) (error : ExtractError Empty)
  /-- Two classes have one name; the class at the kept location stays. -/
  | duplicate (name kept dropped : String)
  | completed (files classes : Nat)

namespace Notice

def level : Notice → Level
  | .detected .. => .info
  | .analyzed .. => .debug
  | .skipped .. => .warn
  | .duplicate .. => .warn
  | .completed .. => .info

def title : Notice → String
  | .detected .. => "detected project"
  | .analyzed .. => "analyzed class"
  | .skipped .. => "skipping class"
  | .duplicate .. => "duplicate class"
  | .completed .. => "analysis completed"

def listText (xs : List String) : String := "[" ++ String.intercalate " " xs ++ "]"

/-- The details of a notice by name. -/
def details : Notice → List (String × String)
  | .detected name kind classRoots libraries =>
    [("name", name), ("type", kind), ("classRoots", listText classRoots), ("libraries", listText libraries)]
  | .analyzed name edges => [("class", name), ("edges", toString edges)]
  | .skipped name location error => [("name", name), ("location", location), ("error", error.message nofun)]
  | .duplicate name kept dropped => [("class", name), ("kept", kept), ("dropped", dropped)]
  | .completed files classes => [("files", toString files), ("classes", toString classes)]

/-- Whether a character of a value would make a line ambiguous or hard to read. -/
def isUnclear (c : Char) : Bool :=
  c == ' ' || c == '=' || c == '"' || c == '\ufffd' || c < ' ' || ('\x7f' < c && !Text.isPrintable c)

/-- A value in a line: quoted if it is empty or not clear without quotes. -/
def valueText (s : String) : String := if s.isEmpty || s.toList.any isUnclear then Text.quote s else s

/-- A notice as a line. -/
def line (n : Notice) : String :=
  String.intercalate " "
    (("level=" ++ n.level.text) :: ("msg=" ++ valueText n.title) ::
      n.details.map fun (name, value) => name ++ "=" ++ valueText value) ++ "\n"

end Notice

end Linkage
