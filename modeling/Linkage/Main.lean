import Linkage.Command

/-!
The command line. The files to work on are named on standard input, one path a line, so that nothing else is read; a
path that ends in a slash names a directory.
-/
namespace Linkage
namespace Outer

/-- The lines of a stream, without their breaks. -/
partial def readLines (stream : IO.FS.Stream) : IO (List String) := do
  let line ← stream.getLine
  if line.isEmpty then return []
  return line.trimAsciiEnd.toString :: (← readLines stream)

/-- Adds the file or directory at a path to the files. -/
def addPath (working : String) (files : FileTree) (path : String) : IO FileTree := do
  if path.isEmpty then return files
  let full := Path.absolute working path
  let parts := FileTree.partsOf full
  if path.endsWith "/" then return if files.existsAt full then files else files.insert parts .empty
  return files.insert parts (.file (← IO.FS.readBinFile full).toList)

/-- The files that the lines of standard input name, seen from the working directory. -/
def workplace : IO Workplace := do
  let working := (← IO.getEnv "PWD").getD "/"
  let start := FileTree.empty.insert (FileTree.partsOf working) .empty
  let files ← (← readLines (← IO.getStdin)).foldlM (addPath working) start
  return ⟨working, files⟩

/-- Writes a file and the directories on the way to it. -/
def writeFile (path : String) (data : Bytes) : IO Unit := do
  IO.FS.createDirAll (Path.parent path)
  IO.FS.writeBinFile path ⟨data.toArray⟩

end Outer

end Linkage

def main (words : List String) : IO UInt32 := do
  let report := Linkage.Command.run (← Linkage.Outer.workplace) words
  for (path, data) in report.written do
    Linkage.Outer.writeFile path data
  IO.print report.printed
  IO.eprint report.remarks
  return if report.failure.isSome then 1 else 0
