/-! Paths of files: parts between slashes. -/
namespace Linkage
namespace Path

/-- The parts of a path, empty ones included. -/
def parts (path : String) : List String := (path.toList.splitOn '/').map String.ofList

/-- Takes a part into the parts before it, which are in reverse. A part that leads to the directory above takes the
part before it away; at the root it leads nowhere. -/
def addPart (rooted : Bool) (before : List String) (part : String) : List String :=
  if part = "" ∨ part = "." then before
  else if part = ".." then
    match before with
    | [] => if rooted then [] else [".."]
    | last :: rest => if last = ".." then ".." :: before else rest
  else part :: before

def isRooted (path : String) : Bool := path.startsWith "/"

/-- The shortest path that is equal by its letters alone. -/
def clean (path : String) : String :=
  let kept := ((parts path).foldl (addPart (isRooted path)) []).reverse
  let joined := String.intercalate "/" kept
  if isRooted path then "/" ++ joined else if kept.isEmpty then "." else joined

/-- A path in a directory. -/
def join (directory path : String) : String :=
  if directory = "" ∧ path = "" then ""
  else if directory = "" then clean path
  else clean (directory ++ "/" ++ path)

/-- A path seen from a working directory. -/
def absolute (working path : String) : String := if isRooted path then clean path else join working path

/-- The directory that holds what a clean path leads to. -/
def parent (path : String) : String := clean (path ++ "/..")

/-- The last part of a path; slashes at the end do not count. -/
def base (path : String) : String :=
  let rev := path.toList.reverse
  let trimmed := rev.dropWhile (· == '/')
  if rev.isEmpty then "."
  else if trimmed.isEmpty then "/"
  else String.ofList (trimmed.takeWhile (· != '/')).reverse

/-- The part of a name from its last point on, within the last part of a path. -/
def extension (name : String) : String :=
  let rev := name.toList.reverse.takeWhile (· != '/')
  let ext := rev.takeWhile (· != '.')
  if ext.length < rev.length then String.ofList ('.' :: ext.reverse) else ""

/-- The path without slashes at its ends. -/
def trimSlashes (path : String) : String :=
  String.ofList ((path.toList.dropWhile (· == '/')).reverse.dropWhile (· == '/')).reverse

end Path

end Linkage
