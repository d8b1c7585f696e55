import Linkage.Bytes
import Linkage.Files.Path

/-! Trees of directories and files, and what can go wrong on the way to a file. -/
namespace Linkage

/-- A file with its content, or a directory with what it holds. -/
inductive FileTree where
  | file (data : Bytes)
  | directory (children : List (String × FileTree))
deriving Inhabited

/-- Why a path does not lead to what is asked for. -/
inductive PathFault where
  | notExist
  | notDirectory
  | isDirectory
  | exists
deriving Repr, DecidableEq

namespace PathFault

def text : PathFault → String
  | .notExist => "no such file or directory"
  | .notDirectory => "not a directory"
  | .isDirectory => "is a directory"
  | .exists => "file exists"

end PathFault

/-- A failed operation on a path. -/
structure FileError where
  operation : String
  path : String
  fault : PathFault
deriving Repr, DecidableEq

namespace FileError

def message (e : FileError) : String := e.operation ++ " " ++ e.path ++ ": " ++ e.fault.text

end FileError

namespace FileTree

def empty : FileTree := .directory []

def isDirectory : FileTree → Bool
  | .directory _ => true
  | .file _ => false

/-- What a directory holds; nothing for a file. -/
def children : FileTree → List (String × FileTree)
  | .directory cs => cs
  | .file _ => []

/-- Follows parts from a tree; `above` are the directories on the way to it, the nearest first. -/
def follow (above : List FileTree) (tree : FileTree) : List String → Except PathFault FileTree
  | [] => .ok tree
  | part :: rest =>
    match tree with
    | .file _ => .error .notDirectory
    | .directory cs =>
      if part = "" ∨ part = "." then follow above tree rest
      else if part = ".." then
        match above with
        | [] => follow [] tree rest
        | up :: above => follow above up rest
      else
        match cs.lookup part with
        | none => .error .notExist
        | some child => follow (tree :: above) child rest

/-- What an absolute path leads to. -/
def find (tree : FileTree) (path : String) : Except PathFault FileTree :=
  match Path.parts path with
  | _ :: parts => follow [] tree parts
  | [] => .ok tree

def findFor (operation : String) (tree : FileTree) (path : String) : Except FileError FileTree :=
  (tree.find path).mapError fun fault => ⟨operation, path, fault⟩

/-- What can be found out about a path. -/
def stat (tree : FileTree) (path : String) : Except FileError FileTree := tree.findFor "stat" path

def existsAt (tree : FileTree) (path : String) : Bool := (tree.find path).toOption.isSome

def isDirectoryAt (tree : FileTree) (path : String) : Bool := (tree.find path).toOption.any isDirectory

/-- The content of the file at a path. -/
def read (tree : FileTree) (path : String) : Except FileError Bytes := do
  match ← tree.findFor "open" path with
  | .file data => .ok data
  | .directory _ => .error ⟨"read", path, .isDirectory⟩

/-- What the directory at a path holds, by rising name. -/
def list (tree : FileTree) (path : String) : Except FileError (List (String × FileTree)) := do
  match ← tree.findFor "open" path with
  | .file _ => .error ⟨"open", path, .notDirectory⟩
  | .directory cs => .ok (cs.mergeSort fun a b => decide (a.1 ≤ b.1))

/-- Puts a new tree in the place that the parts lead to, with the directories on the way. -/
def insert (tree : FileTree) (parts : List String) (new : FileTree) : FileTree :=
  match parts with
  | [] => new
  | part :: rest =>
    let child := ((tree.children.lookup part).getD empty).insert rest new
    .directory ((tree.children.filter (·.1 != part)) ++ [(part, child)])

/-- Takes away what the parts lead to. -/
def erase (tree : FileTree) : List String → FileTree
  | [] => empty
  | [part] => .directory (tree.children.filter (·.1 != part))
  | part :: rest =>
    match tree.children.lookup part with
    | some child => .directory ((tree.children.filter (·.1 != part)) ++ [(part, child.erase rest)])
    | none => tree

/-- A path below a directory that itself has a path; the empty path is that of the directory searched. -/
def pathBelow (parent name : String) : String := if parent.isEmpty then name else parent ++ "/" ++ name

/-- The files among what a directory holds and below, each with the path of its directory. -/
def filesAmong (parent : String) : List (String × FileTree) → List (String × String)
  | [] => []
  | (name, .file _) :: rest => (parent, name) :: filesAmong parent rest
  | (name, .directory cs) :: rest => filesAmong (pathBelow parent name) cs ++ filesAmong parent rest

/-- The parts of a clean absolute path. -/
def partsOf (path : String) : List String := (Path.parts (Path.clean path)).filter (· != "")

/-- Makes the directories that the parts lead to one after the other, from the path before them on. -/
def makeDirectories (before : String) : List String → FileTree → Except FileError FileTree
  | [], tree => .ok tree
  | part :: rest, tree =>
    let path := before ++ part ++ "/"
    match tree.find path with
    | .ok _ => makeDirectories path rest tree
    | .error .notExist => makeDirectories path rest (tree.insert (partsOf path) empty)
    | .error _ => .error ⟨"mkdir", path, .exists⟩

/-- Makes the directories on the way to a clean absolute path. -/
def makeParents (path : String) (tree : FileTree) : Except FileError FileTree :=
  makeDirectories "/" (Path.parts path).dropLast.tail tree

/-- Why a file cannot be written. -/
inductive WriteError where
  | parent (path : String) (error : FileError)
  | file (error : FileError)
deriving Repr, DecidableEq

def WriteError.message : WriteError → String
  | .parent path error => "unable to create parent for " ++ path ++ ": " ++ error.message
  | .file error => error.message

/-- Writes a file at an absolute path and makes the directories on the way. -/
def write (tree : FileTree) (path : String) (data : Bytes) : Except WriteError FileTree := do
  let target := Path.clean path
  let tree ← (tree.makeParents target).mapError (.parent path)
  if tree.isDirectoryAt target then throw (.file ⟨"open", target, .isDirectory⟩)
  return tree.insert (partsOf target) (.file data)

end FileTree

end Linkage
